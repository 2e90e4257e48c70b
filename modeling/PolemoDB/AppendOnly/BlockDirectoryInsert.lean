import PolemoDB.AppendOnly.BlockDirectory
import PolemoDB.Lib.Loop

/-!
# What insert commands leave in the block directory

A minipage is full when it has exactly `gp_blockdirectory_minipage_size` entries.  A command that
loads a minipage with more entries than its own setting never finds it full, and writes entry after
entry behind the others, at last behind the array.  The number of entries of the last minipage is
therefore followed from command to command (`countAfter`), and the commands are fine as long as it
fits (`commandsFit`).

Principal results: `insertCommand_spec` (one command), `insertCommands_exact`.
-/

namespace PolemoDB.AppendOnly

open PolemoDB.Lib List BlkdirRel Nat

/-! ## The relation under insert and update -/

/-- The tids of the relation are those given out so far, each once. -/
structure BlkdirRel.Wf (rel : BlkdirRel) : Prop where
  fresh : ∀ t ∈ rel.tuples, t.tid < rel.nextTid
  nodup : (rel.tuples.map (·.tid)).Nodup

section Relation

variable {rel : BlkdirRel} {segno columnGroupNo firstRowNum : Nat}

theorem BlkdirRel.insert_spec (h : rel.Wf) (minipage : List MinipageEntry)
    (hkey : ∀ t ∈ rel.tuplesOf segno columnGroupNo, t.firstRowNum ≠ firstRowNum) :
    ∃ rel', rel.insert segno columnGroupNo firstRowNum minipage = .ok rel' ∧ rel'.Wf ∧
      rel'.nextTid = rel.nextTid + 1 ∧ rel'.tuplesOf segno columnGroupNo =
        rel.tuplesOf segno columnGroupNo ++
        [⟨rel.nextTid, segno, columnGroupNo, firstRowNum, minipage⟩] := by
  have hany : ((rel.tuplesOf segno columnGroupNo).any (·.firstRowNum == firstRowNum)) = false := by
    rw [any_eq_false]
    intro t ht
    simpa using hkey t ht
  refine ⟨_, by rw [insert, hany]; rfl, ⟨?_, ?_⟩, rfl, ?_⟩
  · exact forall_mem_append.mpr
      ⟨fun t ht => lt_succ_of_lt (h.fresh t ht), forall_mem_singleton.mpr (lt_succ_self _)⟩
  · rw [map_append, nodup_append]
    refine ⟨h.nodup, nodup_singleton _, ?_⟩
    intro a ha b hb
    obtain ⟨t, ht, rfl⟩ := mem_map.mp ha
    rw [mem_singleton.mp hb]
    exact Nat.ne_of_lt (h.fresh t ht)
  · simp [tuplesOf, BlkdirTuple.isOf]

theorem BlkdirRel.Wf.without (h : rel.Wf) (tid : Nat) :
    Wf ⟨rel.tuples.filter (·.tid != tid), rel.nextTid⟩ :=
  ⟨fun t ht => h.fresh t (mem_of_mem_filter ht), h.nodup.sublist ((filter_sublist).map _)⟩

theorem BlkdirRel.Wf.tuplesOf_without (h : rel.Wf) {before : List BlkdirTuple} {t : BlkdirTuple}
    (htuples : rel.tuplesOf segno columnGroupNo = before ++ [t]) :
    tuplesOf ⟨rel.tuples.filter (·.tid != t.tid), rel.nextTid⟩ segno columnGroupNo = before := by
  have hnodup : ((before ++ [t]).map (·.tid)).Nodup := by
    rw [← htuples]
    exact h.nodup.sublist ((filter_sublist).map _)
  have hbefore : before.filter (·.tid != t.tid) = before := by
    rw [filter_eq_self]
    intro t' ht'
    rw [map_append, nodup_append] at hnodup
    simpa using hnodup.2.2 t'.tid (mem_map_of_mem ht') t.tid (by simp)
  calc tuplesOf ⟨rel.tuples.filter (·.tid != t.tid), rel.nextTid⟩ segno columnGroupNo
      = (rel.tuplesOf segno columnGroupNo).filter (·.tid != t.tid) := by
        unfold tuplesOf
        rw [filter_filter, filter_filter]
        congr 1
        funext t'
        exact Bool.and_comm _ _
    _ = before := by
        rw [htuples, filter_append, hbefore]
        simp

theorem BlkdirRel.update_spec (h : rel.Wf) (minipage : List MinipageEntry) {before :
    List BlkdirTuple} {t : BlkdirTuple} (htuples : rel.tuplesOf segno columnGroupNo = before ++ [t])
    (hkey : ∀ t ∈ before, t.firstRowNum ≠ firstRowNum) :
    ∃ rel', rel.update t.tid segno columnGroupNo firstRowNum minipage = .ok rel' ∧ rel'.Wf ∧
      rel'.nextTid = rel.nextTid + 1 ∧ rel'.tuplesOf segno columnGroupNo =
        before ++ [⟨rel.nextTid, segno, columnGroupNo, firstRowNum, minipage⟩] := by
  have hmem : t ∈ rel.tuples := by
    have : t ∈ rel.tuplesOf segno columnGroupNo := by rw [htuples]; simp
    exact mem_of_mem_filter this
  have hany : (rel.tuples.any (·.tid == t.tid)) = true := any_eq_true.mpr ⟨t, hmem, by simp⟩
  have hwithout := h.tuplesOf_without htuples
  obtain ⟨rel', heq, hwf, hnext, hof⟩ :=
    insert_spec (h.without t.tid) minipage (by rw [hwithout]; exact hkey)
  exact ⟨rel', by rw [update, if_pos hany, heq], hwf, hnext, by rw [hof, hwithout]⟩

end Relation

/-! ## Minipages in order -/

/-- The rows of the one entry are before the rows of the other. -/
def MinipageEntry.Before (a b : MinipageEntry) : Prop := a.firstRowNum + a.rowCount ≤ b.firstRowNum

/-- Entries that have rows, in increasing order and disjoint. -/
structure InOrder (es : List MinipageEntry) : Prop where
  rows : ∀ e ∈ es, e.rowCount ≠ 0
  disjoint : es.Pairwise MinipageEntry.Before

/-- The key of the tuple is the first row of its minipage. -/
structure BlkdirTuple.Keyed (t : BlkdirTuple) : Prop where
  nonempty : t.minipage ≠ []
  key : t.firstRowNum = (t.minipage.headD default).firstRowNum

open BlkdirTuple

instance (t : BlkdirTuple) : Decidable t.Keyed :=
  decidable_of_iff (t.minipage ≠ [] ∧ t.firstRowNum = (t.minipage.headD default).firstRowNum)
    ⟨fun h => ⟨h.1, h.2⟩, fun h => ⟨h.1, h.2⟩⟩

variable {es fs : List MinipageEntry} {t : BlkdirTuple}

theorem InOrder.append (hes : InOrder es) (hfs : InOrder fs)
    (h : ∀ a ∈ es, ∀ b ∈ fs, a.Before b) : InOrder (es ++ fs) :=
  ⟨fun e he => (mem_append.mp he).elim (hes.rows e) (hfs.rows e),
    pairwise_append.mpr ⟨hes.disjoint, hfs.disjoint, h⟩⟩

theorem InOrder.sublist (h : InOrder es) (hsub : fs.Sublist es) : InOrder fs :=
  ⟨fun e he => h.rows e (hsub.subset he), h.disjoint.sublist hsub⟩

theorem InOrder.lt (h : InOrder (es ++ fs)) {a b : MinipageEntry} (ha : a ∈ es)
    (hb : b ∈ fs) : a.firstRowNum < b.firstRowNum := by
  have hbefore := (pairwise_append.mp h.disjoint).2.2 a ha b hb
  have hrows := h.rows a (mem_append_left _ ha)
  unfold MinipageEntry.Before at hbefore
  omega

theorem BlkdirTuple.Keyed.exists_head (h : t.Keyed) :
    ∃ e ∈ t.minipage, t.firstRowNum = e.firstRowNum := by
  obtain ⟨e, es, hpage⟩ := exists_cons_of_ne_nil h.nonempty
  exact ⟨e, by rw [hpage]; exact mem_cons_self, by rw [h.key, hpage]; rfl⟩

theorem InOrder.key_le (h : InOrder t.minipage) (hkeyed : t.Keyed) {e : MinipageEntry}
    (he : e ∈ t.minipage) : t.firstRowNum ≤ e.firstRowNum := by
  obtain ⟨a, fs, hpage⟩ := exists_cons_of_ne_nil hkeyed.nonempty
  have hkey := hkeyed.key
  rw [hpage] at h he hkey
  rcases mem_cons.mp he with rfl | he
  · exact le_of_eq hkey
  · rw [hkey]
    exact le_of_lt ((show InOrder ([a] ++ fs) from h).lt mem_cons_self he)

theorem InOrder.key_lt {before : List BlkdirTuple}
    (h : InOrder (before.flatMap (·.minipage) ++ es)) (ht : t ∈ before) (hkeyed : t.Keyed)
    {e : MinipageEntry} (he : e ∈ es) : t.firstRowNum < e.firstRowNum := by
  obtain ⟨a, ha, hkey⟩ := hkeyed.exists_head
  rw [hkey]
  exact h.lt (mem_flatMap.mpr ⟨t, ht, ha⟩) he

theorem InOrder.keys_sorted {ts : List BlkdirTuple} (h : InOrder (ts.flatMap (·.minipage)))
    (hkeyed : ∀ t ∈ ts, t.Keyed) : ts.Pairwise fun a b => a.firstRowNum ≤ b.firstRowNum := by
  induction ts with
  | nil => exact List.Pairwise.nil
  | cons t ts ih =>
    refine pairwise_cons.mpr ⟨fun t' ht' => ?_,
      ih (h.sublist (sublist_append_right _ _)) fun t' ht' => hkeyed t' (mem_cons_of_mem _ ht')⟩
    obtain ⟨a, ha, hkey⟩ := (hkeyed t mem_cons_self).exists_head
    obtain ⟨b, hb, hkey'⟩ := (hkeyed t' (mem_cons_of_mem _ ht')).exists_head
    rw [hkey, hkey']
    exact le_of_lt (h.lt ha (mem_flatMap.mpr ⟨t', ht', hb⟩))

/-! ## The state in the middle of a command -/

/-- The entries `es` are in the tuples `before` and in the minipage in memory; the tuple the
minipage is written to, if there is one, comes behind them. -/
structure Open (segno columnGroupNo : Nat) (rel : BlkdirRel) (info : MinipagePerColumnGroup)
    (before : List BlkdirTuple) (es : List MinipageEntry) : Prop where
  wf : rel.Wf
  keyed : ∀ t ∈ before, t.Keyed
  bound : ∀ t ∈ before, t.minipage.length ≤ NUM_MINIPAGE_ENTRIES
  written : ∃ last : Option BlkdirTuple, rel.tuplesOf segno columnGroupNo = before ++ last.toList ∧
    last.map (·.tid) = info.tupleTid
  fits : info.entries.length ≤ NUM_MINIPAGE_ENTRIES
  entries : before.flatMap (·.minipage) ++ info.entries = es

/-- The entries `es` are in the tuples, `n` of them in the last one. -/
structure Closed (segno columnGroupNo : Nat) (rel : BlkdirRel) (es : List MinipageEntry) (n : Nat) :
    Prop where
  wf : rel.Wf
  keyed : ∀ t ∈ rel.tuplesOf segno columnGroupNo, t.Keyed
  bound : ∀ t ∈ rel.tuplesOf segno columnGroupNo, t.minipage.length ≤ NUM_MINIPAGE_ENTRIES
  entries : (rel.tuplesOf segno columnGroupNo).flatMap (·.minipage) = es
  count : ((rel.tuplesOf segno columnGroupNo).getLast?.elim 0 fun t => t.minipage.length) = n

section Command

variable {segno columnGroupNo minipageSize : Nat} {rel : BlkdirRel} {info : MinipagePerColumnGroup}
  {before : List BlkdirTuple} {es : List MinipageEntry}

def BlkdirTuple.ofMinipage (tid segno columnGroupNo : Nat) (entries : List MinipageEntry) :
    BlkdirTuple :=
  ⟨tid, segno, columnGroupNo, (entries.headD default).firstRowNum, entries⟩

theorem BlkdirTuple.ofMinipage_keyed (tid segno columnGroupNo : Nat) {entries : List MinipageEntry}
    (h : entries ≠ []) : (ofMinipage tid segno columnGroupNo entries).Keyed :=
  ⟨h, rfl⟩

section

variable (h : Open segno columnGroupNo rel info before es) (horder : InOrder es)
  (hne : info.entries ≠ [])
include h horder hne

theorem writeMinipage_spec :
    ∃ rel', writeMinipage rel segno columnGroupNo info =
      .ok (rel', { info with tupleTid := some rel.nextTid }) ∧
      rel'.Wf ∧ rel'.tuplesOf segno columnGroupNo =
        before ++ [ofMinipage rel.nextTid segno columnGroupNo info.entries] := by
  have hkey : ∀ t ∈ before, t.firstRowNum ≠ (info.entries.headD default).firstRowNum := by
    intro t ht
    obtain ⟨e, fs, hpage⟩ := exists_cons_of_ne_nil hne
    rw [← h.entries] at horder
    refine Nat.ne_of_lt (horder.key_lt ht (h.keyed t ht) ?_)
    rw [hpage]
    exact mem_cons_self
  obtain ⟨last, htuples, htid⟩ := h.written
  unfold writeMinipage
  cases last with
  | none =>
    rw [Option.toList_none, append_nil] at htuples
    obtain ⟨rel', heq, hwf, -, hof⟩ := insert_spec h.wf info.entries (by rw [htuples]; exact hkey)
    refine ⟨rel', ?_, hwf, by rw [hof, htuples]; rfl⟩
    rw [← htid]
    dsimp only [Option.map_none]
    rw [heq]
    rfl
  | some t =>
    obtain ⟨rel', heq, hwf, -, hof⟩ := update_spec h.wf info.entries htuples hkey
    refine ⟨rel', ?_, hwf, hof⟩
    rw [← htid]
    dsimp only [Option.map_some]
    rw [heq]
    rfl

theorem Open.write :
    ∃ rel', writeMinipage rel segno columnGroupNo info =
      .ok (rel', { info with tupleTid := some rel.nextTid }) ∧
      Open segno columnGroupNo rel' { info with tupleTid := some rel.nextTid } before es := by
  obtain ⟨rel', heq, hwf, hof⟩ := writeMinipage_spec h horder hne
  exact ⟨rel', heq, hwf, h.keyed, h.bound, ⟨some _, hof, rfl⟩, h.fits, h.entries⟩

theorem Open.writeAndClear :
    ∃ rel' info' before', writeMinipage rel segno columnGroupNo info = .ok (rel', info') ∧
      Open segno columnGroupNo rel' (clearMinipage info') before' es := by
  obtain ⟨rel', heq, hwf, hof⟩ := writeMinipage_spec h horder hne
  have hkeyed := ofMinipage_keyed rel.nextTid segno columnGroupNo hne
  refine ⟨rel', _, before ++ [ofMinipage rel.nextTid segno columnGroupNo info.entries], heq, hwf,
    forall_mem_append.mpr ⟨h.keyed, forall_mem_singleton.mpr hkeyed⟩,
    forall_mem_append.mpr ⟨h.bound, forall_mem_singleton.mpr h.fits⟩,
    ⟨none, by rw [hof]; simp, rfl⟩, zero_le _, ?_⟩
  rw [← h.entries, flatMap_append]
  simp [clearMinipage, ofMinipage]

end

/-- The number of entries in memory after one more. -/
def countNext (minipageSize n : Nat) : Nat := if n = minipageSize then 1 else n + 1

/-- There is room for one more entry, in the array or in a new minipage. -/
def roomForNext (minipageSize n : Nat) : Prop := n = minipageSize ∨ n < NUM_MINIPAGE_ENTRIES

variable {e : MinipageEntry}

theorem insertNewEntry_notFull (he : e.rowCount ≠ 0) (hfull : info.entries.length ≠ minipageSize) :
    insertNewEntry minipageSize segno columnGroupNo rel info e =
      appendEntry info e >>= fun info => .ok (rel, info) := by
  unfold insertNewEntry isMinipageFull
  rw [if_neg he, if_neg (by simpa using hfull)]
  rfl

theorem insertNewEntry_spec (h : Open segno columnGroupNo rel info before es) (horder : InOrder es)
    (hsize : 1 ≤ minipageSize) (he : e.rowCount ≠ 0)
    (hroom : roomForNext minipageSize info.entries.length) :
    ∃ rel' info' before', insertNewEntry minipageSize segno columnGroupNo rel info e =
      .ok (rel', info') ∧ Open segno columnGroupNo rel' info' before' (es ++ [e]) ∧
      info'.entries.length = countNext minipageSize info.entries.length ∧
      ∃ fs, info'.entries = fs ++ [e] := by
  unfold countNext
  by_cases hfull : info.entries.length = minipageSize
  · have hne : info.entries ≠ [] := by
      intro hnil
      rw [hnil, length_nil] at hfull
      omega
    obtain ⟨rel', info', before', heq, hopen⟩ := h.writeAndClear horder hne
    refine ⟨rel', { clearMinipage info' with entries := [e] }, before', ?_,
      { hopen with fits := show 1 ≤ 161 by decide, entries := ?_ }, (if_pos hfull).symm, [], rfl⟩
    · unfold insertNewEntry isMinipageFull
      rw [if_neg he, if_pos (by simpa using hfull), heq]
      rfl
    · rw [← hopen.entries, clearMinipage, append_nil]
  · rw [if_neg hfull]
    have hlt : info.entries.length < NUM_MINIPAGE_ENTRIES := hroom.resolve_left hfull
    refine ⟨rel, { info with entries := info.entries ++ [e] }, before, ?_,
      { h with fits := ?_, entries := ?_ }, ?_, info.entries, rfl⟩
    · rw [insertNewEntry_notFull he hfull, appendEntry, if_pos hlt]
      rfl
    · rw [length_append]
      exact hlt
    · rw [← append_assoc, h.entries]
    · rw [length_append]
      rfl

theorem insertNewEntry_overflow (he : e.rowCount ≠ 0)
    (hroom : ¬ roomForNext minipageSize info.entries.length) :
    insertNewEntry minipageSize segno columnGroupNo rel info e = .error .minipageOverflow := by
  unfold roomForNext at hroom
  rw [insertNewEntry_notFull he (by omega), appendEntry, if_neg (by omega)]
  rfl

/-! ## Counting -/

/-- The number of entries of the last minipage after `k` more. -/
def countAfter (minipageSize n k : Nat) : Nat :=
  if k = 0 then n else if n ≤ minipageSize then (n + k - 1) % minipageSize + 1 else n + k

/-- The `k` entries fit: the last minipage is not larger than the setting, or the array has room for
all of them. -/
def countFits (minipageSize n k : Nat) : Prop := n ≤ minipageSize ∨ n + k ≤ NUM_MINIPAGE_ENTRIES

instance (minipageSize n k : Nat) : Decidable (countFits minipageSize n k) :=
  inferInstanceAs (Decidable (_ ∨ _))

theorem countAfter_succ (hsize : 1 ≤ minipageSize) (n k : Nat) :
    countAfter minipageSize n (k + 1) = countAfter minipageSize (countNext minipageSize n) k := by
  unfold countAfter countNext
  rw [if_neg (succ_ne_zero k)]
  by_cases hk : k = 0
  · rw [if_pos hk, hk]
    by_cases heq : n = minipageSize
    · rw [if_pos heq, if_pos (le_of_eq heq), heq]
      show minipageSize % minipageSize + 1 = 1
      rw [mod_self]
    split
    · rw [mod_eq_of_lt (by omega)]
      omega
    · rfl
  · rw [if_neg hk]
    by_cases heq : n = minipageSize
    · rw [if_pos heq, if_pos (le_of_eq heq), if_pos hsize, heq,
        show minipageSize + (k + 1) - 1 = k + minipageSize by omega, Nat.add_mod_right,
        Nat.add_sub_cancel_left]
    rw [if_neg heq]
    by_cases hle : n ≤ minipageSize
    · rw [if_pos hle, if_pos (by omega), show n + (k + 1) - 1 = n + 1 + k - 1 by omega]
    · rw [if_neg hle, if_neg (by omega)]
      omega

theorem countFits_succ (hsize : 1 ≤ minipageSize) (hmax : minipageSize ≤ NUM_MINIPAGE_ENTRIES)
    (n k : Nat) : countFits minipageSize n (k + 1) ↔
      roomForNext minipageSize n ∧ countFits minipageSize (countNext minipageSize n) k := by
  unfold countFits roomForNext countNext
  by_cases heq : n = minipageSize
  · simp only [if_pos heq]
    omega
  · simp only [if_neg heq]
    omega

/-! ## The entries of a command -/

/-- The entries that have rows: the others are not inserted. -/
def insertedOf (entries : List MinipageEntry) : List MinipageEntry :=
  entries.filter (·.rowCount != 0)

theorem insertedOf_cons_zero (he : e.rowCount = 0) (fs : List MinipageEntry) :
    insertedOf (e :: fs) = insertedOf fs := by
  unfold insertedOf
  rw [filter_cons_of_neg (by simpa using he)]

theorem insertedOf_cons (he : e.rowCount ≠ 0) (fs : List MinipageEntry) :
    insertedOf (e :: fs) = e :: insertedOf fs := by
  unfold insertedOf
  rw [filter_cons_of_pos (by simpa using he)]

section

variable (hsize : 1 ≤ minipageSize) (hmax : minipageSize ≤ NUM_MINIPAGE_ENTRIES)
  (fs : List MinipageEntry)
include hsize hmax

theorem insertEntries_spec {rel : BlkdirRel} {info : MinipagePerColumnGroup}
    {before : List BlkdirTuple} {es : List MinipageEntry}
    (h : Open segno columnGroupNo rel info before es) (horder : InOrder (es ++ insertedOf fs)) :
    (countFits minipageSize info.entries.length (insertedOf fs).length ∧ ∃ rel' info' before',
      insertEntries minipageSize segno columnGroupNo fs rel info = .ok (rel', info') ∧
      Open segno columnGroupNo rel' info' before' (es ++ insertedOf fs) ∧
      info'.entries.length = countAfter minipageSize info.entries.length (insertedOf fs).length) ∨
    (¬ countFits minipageSize info.entries.length (insertedOf fs).length ∧
      insertEntries minipageSize segno columnGroupNo fs rel info = .error .minipageOverflow) := by
  induction fs generalizing rel info before es with
  | nil =>
    exact .inl ⟨.inr h.fits, rel, info, before, rfl, by rwa [insertedOf, filter_nil, append_nil],
      rfl⟩
  | cons e fs ih =>
    by_cases he : e.rowCount = 0
    · rw [insertedOf_cons_zero he] at horder ⊢
      unfold insertEntries insertNewEntry
      rw [if_pos he]
      exact ih h horder
    rw [insertedOf_cons he, append_cons] at horder ⊢
    rw [length_cons, countFits_succ hsize hmax]
    unfold insertEntries
    by_cases hroom : roomForNext minipageSize info.entries.length
    · have horder' : InOrder es := horder.sublist (by simp)
      obtain ⟨rel₁, info₁, before₁, heq₁, hopen₁, hcount₁, -⟩ :=
        insertNewEntry_spec h horder' hsize he hroom
      rw [heq₁, countAfter_succ hsize, ← hcount₁, and_iff_right hroom]
      exact ih hopen₁ horder
    · rw [insertNewEntry_overflow he hroom]
      exact .inr ⟨fun hfits => hroom hfits.1, rfl⟩

end

/-! ## The placeholder -/

/-- The number of entries in memory after the placeholder is taken out again. -/
def countPlaceholder (minipageSize n : Nat) : Nat := if n = minipageSize then 0 else n

variable {k firstRowNum n : Nat}

theorem countAfter_placeholder (hsize : 1 ≤ minipageSize) (n : Nat) (hk : k ≠ 0) :
    countAfter minipageSize (countPlaceholder minipageSize n) k = countAfter minipageSize n k := by
  unfold countPlaceholder
  split
  case isTrue heq =>
    unfold countAfter
    rw [if_neg hk, if_neg hk, if_pos (zero_le _), if_pos (le_of_eq heq), heq,
      show minipageSize + k - 1 = 0 + k - 1 + minipageSize by omega, add_mod_right]
  case isFalse => rfl

theorem countFits_placeholder (hmax : minipageSize ≤ NUM_MINIPAGE_ENTRIES) (n : Nat) (hk : k ≠ 0) :
    countFits minipageSize n k ↔
      roomForNext minipageSize n ∧ countFits minipageSize (countPlaceholder minipageSize n) k := by
  unfold countFits roomForNext countPlaceholder
  split <;> omega

theorem insertPlaceholder_spec (h : Open segno columnGroupNo rel info before es)
    (horder : InOrder es) (hsize : 1 ≤ minipageSize) (fileOffset : Nat)
    (hafter : ∀ e ∈ es, e.firstRowNum + e.rowCount ≤ firstRowNum)
    (hroom : roomForNext minipageSize info.entries.length) :
    ∃ rel' info' before',
      insertPlaceholder minipageSize segno columnGroupNo rel info firstRowNum fileOffset =
      .ok (rel', info') ∧ Open segno columnGroupNo rel' info' before' es ∧
      info'.entries.length = countPlaceholder minipageSize info.entries.length := by
  have hrows : (⟨firstRowNum, fileOffset, AOTUPLEID_MAXROWNUM⟩ : MinipageEntry).rowCount ≠ 0 := by
    show AOTUPLEID_MAXROWNUM ≠ 0
    decide
  obtain ⟨rel₁, info₁, before₁, heq₁, hopen₁, hcount₁, fs, hfs⟩ :=
    insertNewEntry_spec h horder hsize hrows hroom
  have horder₁ : InOrder (es ++ [⟨firstRowNum, fileOffset, AOTUPLEID_MAXROWNUM⟩]) := by
    refine horder.append ⟨?_, pairwise_singleton _ _⟩ ?_
    · intro e he
      rw [mem_singleton.mp he]
      exact hrows
    · intro a ha b hb
      rw [mem_singleton.mp hb]
      exact hafter a ha
  obtain ⟨rel₂, heq₂, hopen₂⟩ := hopen₁.write horder₁ (by rw [hfs]; simp)
  refine ⟨rel₂, { info₁ with entries := info₁.entries.dropLast, tupleTid := some rel₁.nextTid },
    before₁, ?_, { hopen₂ with fits := ?_, entries := ?_ }, ?_⟩
  · unfold insertPlaceholder
    rw [heq₁, ok_bind]
    dsimp only
    rw [heq₂]
    rfl
  · exact le_trans (dropLast_sublist _).length_le hopen₁.fits
  · have hentries := hopen₁.entries
    rw [hfs, ← append_assoc] at hentries
    rw [hfs, dropLast_concat]
    exact (append_inj' hentries rfl).1
  · rw [hfs, length_append, length_singleton] at hcount₁
    show info₁.entries.dropLast.length = _
    rw [hfs, dropLast_concat]
    unfold countNext at hcount₁
    unfold countPlaceholder
    split <;> rename_i heq
    · rw [if_pos heq] at hcount₁
      omega
    · rw [if_neg heq] at hcount₁
      omega

theorem insertPlaceholder_overflow (fileOffset : Nat)
    (hroom : ¬ roomForNext minipageSize info.entries.length) :
    insertPlaceholder minipageSize segno columnGroupNo rel info firstRowNum fileOffset =
    .error .minipageOverflow := by
  unfold insertPlaceholder
  rw [insertNewEntry_overflow (show AOTUPLEID_MAXROWNUM ≠ 0 by decide) hroom]
  rfl

/-! ## From one command to the next -/

theorem endForInsert_spec (h : Open segno columnGroupNo rel info before es) (horder : InOrder es)
    (hne : 0 < info.entries.length) :
    ∃ rel', endForInsert segno columnGroupNo rel info = .ok rel' ∧
      Closed segno columnGroupNo rel' es info.entries.length := by
  have hentries : info.entries ≠ [] := length_pos_iff.mp hne
  obtain ⟨rel', heq, hwf, hof⟩ := writeMinipage_spec h horder hentries
  refine ⟨rel', ?_, hwf, ?_, ?_, ?_, ?_⟩
  · unfold endForInsert
    rw [if_pos hne, heq]
    rfl
  · rw [hof]
    exact forall_mem_append.mpr
      ⟨h.keyed, forall_mem_singleton.mpr (ofMinipage_keyed _ _ _ hentries)⟩
  · rw [hof]
    exact forall_mem_append.mpr ⟨h.bound, forall_mem_singleton.mpr h.fits⟩
  · rw [hof, ← h.entries, flatMap_append]
    simp [ofMinipage]
  · rw [hof, getLast?_concat]
    rfl

theorem Closed.inOrder_eq (h : Closed segno columnGroupNo rel es n) (horder : InOrder es) :
    rel.inOrder segno columnGroupNo = rel.tuplesOf segno columnGroupNo := by
  rw [← h.entries] at horder
  exact List.Pairwise.insertionSort_eq (horder.keys_sorted h.keyed)

theorem loadLastMinipage_spec (h : Closed segno columnGroupNo rel es n) (horder : InOrder es)
    {lastSequence : Nat} (hlast : ∀ e ∈ es, e.firstRowNum + e.rowCount ≤ lastSequence + 1) :
    ∃ info before, loadLastMinipage rel segno columnGroupNo lastSequence = .ok info ∧
      Open segno columnGroupNo rel info before es ∧ info.entries.length = n := by
  have hscan : rel.scanBackward segno columnGroupNo (if lastSequence = 0 then 1 else lastSequence) =
      (rel.tuplesOf segno columnGroupNo).reverse := by
    unfold scanBackward
    rw [h.inOrder_eq horder, filter_eq_self.mpr]
    intro t ht
    obtain ⟨e, he, hkey⟩ := (h.keyed t ht).exists_head
    have hmem : e ∈ es := by
      rw [← h.entries]
      exact mem_flatMap.mpr ⟨t, ht, he⟩
    have hrow := hlast e hmem
    have hcount := horder.rows e hmem
    rw [decide_eq_true_eq, hkey]
    split <;> omega
  unfold loadLastMinipage
  dsimp only
  rw [hscan, head?_reverse]
  rcases eq_nil_or_concat (rel.tuplesOf segno columnGroupNo) with hnil | ⟨before, t, htuples⟩
  · rw [hnil]
    refine ⟨.init, [], rfl, ⟨h.wf, nofun, nofun,
      ⟨none, hnil, rfl⟩, zero_le _, ?_⟩, ?_⟩
    · rw [← h.entries, hnil]
      rfl
    · rw [← h.count, hnil]
      rfl
  · rw [concat_eq_append] at htuples
    have hmem : ∀ t' ∈ before, t' ∈ rel.tuplesOf segno columnGroupNo := by
      intro t' ht'
      rw [htuples]
      exact mem_append_left _ ht'
    have hbound : t.minipage.length ≤ NUM_MINIPAGE_ENTRIES := h.bound t (by rw [htuples]; simp)
    rw [htuples, getLast?_concat]
    refine ⟨⟨t.minipage, some t.tid, none⟩, before, if_pos hbound,
      ⟨h.wf, fun t' ht' => h.keyed t' (hmem t' ht'),
      fun t' ht' => h.bound t' (hmem t' ht'), ⟨some t, htuples, rfl⟩, hbound, ?_⟩, ?_⟩
    · rw [← h.entries, htuples, flatMap_append, flatMap_singleton]
    · rw [← h.count, htuples, getLast?_concat]
      rfl

end Command

/-! ## Commands -/

def InsertCommand.inserted (c : InsertCommand) : List MinipageEntry := insertedOf c.entries

/-- The command comes after the entries `es`: its sequence numbers begin behind their rows. -/
structure InsertCommand.Follows (c : InsertCommand) (es : List MinipageEntry) : Prop where
  size : 1 ≤ c.minipageSize ∧ c.minipageSize ≤ NUM_MINIPAGE_ENTRIES
  last : ∀ e ∈ es, e.firstRowNum + e.rowCount ≤ c.lastSequence + 1
  placeholder : ∀ p ∈ c.placeholder, c.lastSequence < p.1
  rows : ∀ e ∈ c.inserted, c.lastSequence < e.firstRowNum
  disjoint : c.inserted.Pairwise MinipageEntry.Before
  some : c.inserted ≠ []

/-- The commands come one after the other. -/
def Follow : List InsertCommand → List MinipageEntry → Prop
  | [], _ => True
  | c :: cs, es => c.Follows es ∧ Follow cs (es ++ c.inserted)

/-- Each command fits, with `n` entries in the last minipage before the first of them. -/
def commandsFit : List InsertCommand → Nat → Prop
  | [], _ => True
  | c :: cs, n => countFits c.minipageSize n c.inserted.length ∧
    commandsFit cs (countAfter c.minipageSize n c.inserted.length)

section Commands

variable {segno columnGroupNo : Nat} {rel : BlkdirRel} {es : List MinipageEntry} {c : InsertCommand}
  {n : Nat}

theorem InsertCommand.Follows.inOrder (h : c.Follows es) (horder : InOrder es) :
    InOrder (es ++ c.inserted) := by
  refine horder.append ⟨fun e he => by simpa using (mem_filter.mp he).2, h.disjoint⟩ ?_
  intro a ha b hb
  have h1 := h.last a ha
  have h2 := h.rows b hb
  unfold MinipageEntry.Before
  omega

theorem countAfter_pos {minipageSize k : Nat} (hk : k ≠ 0) : 0 < countAfter minipageSize n k := by
  unfold countAfter
  rw [if_neg hk]
  split <;> omega

theorem insertCommand_spec (h : Closed segno columnGroupNo rel es n) (horder : InOrder es)
    (hc : c.Follows es) : (countFits c.minipageSize n c.inserted.length →
      ∃ rel', insertCommand segno columnGroupNo rel c = .ok rel' ∧
      Closed segno columnGroupNo rel' (es ++ c.inserted)
      (countAfter c.minipageSize n c.inserted.length)) ∧
    (¬ countFits c.minipageSize n c.inserted.length →
      insertCommand segno columnGroupNo rel c = .error .minipageOverflow) := by
  obtain ⟨hsize, hmax⟩ := hc.size
  have hk : c.inserted.length ≠ 0 := fun h0 => hc.some (length_eq_zero_iff.mp h0)
  have horder' := hc.inOrder horder
  obtain ⟨info, before, hload, hopen, hcount⟩ := loadLastMinipage_spec h horder hc.last
  unfold insertCommand InsertCommand.startInsert
  rw [hload, ok_bind]
  -- the command after its placeholder
  have hrest : ∀ {rel₁ : BlkdirRel} {info₁ : MinipagePerColumnGroup} {before₁ : List BlkdirTuple},
      Open segno columnGroupNo rel₁ info₁ before₁ es →
      (countFits c.minipageSize info₁.entries.length c.inserted.length →
        ∃ rel', (insertEntries c.minipageSize segno columnGroupNo c.entries rel₁ info₁ >>= fun r =>
          endForInsert segno columnGroupNo r.1 r.2) = .ok rel' ∧
            Closed segno columnGroupNo rel' (es ++ c.inserted)
            (countAfter c.minipageSize info₁.entries.length c.inserted.length)) ∧
      (¬ countFits c.minipageSize info₁.entries.length c.inserted.length →
        (insertEntries c.minipageSize segno columnGroupNo c.entries rel₁ info₁ >>= fun r =>
          endForInsert segno columnGroupNo r.1 r.2) = .error .minipageOverflow) := by
    intro rel₁ info₁ before₁ hopen₁
    rcases insertEntries_spec hsize hmax c.entries hopen₁ horder' with ⟨hfits, rel₂, info₂, before₂,
      heq₂, hopen₂, hcount₂⟩ | ⟨hfits, hoverflow⟩
    · refine ⟨fun _ => ?_, absurd hfits⟩
      obtain ⟨rel', heq, hclosed⟩ :=
        endForInsert_spec hopen₂ horder' (by rw [hcount₂]; exact countAfter_pos hk)
      rw [hcount₂] at hclosed
      exact ⟨rel', by rw [heq₂, ok_bind]; exact heq, hclosed⟩
    · refine ⟨fun h => absurd h hfits, fun _ => ?_⟩
      rw [hoverflow]
      rfl
  cases hp : c.placeholder with
  | none =>
    rw [← hcount]
    exact hrest hopen
  | some p =>
    have hafter : ∀ e ∈ es, e.firstRowNum + e.rowCount ≤ p.1 := by
      intro e he
      have h1 := hc.last e he
      have h2 := hc.placeholder p hp
      omega
    have hfits := countFits_placeholder hmax n hk
    by_cases hroom : roomForNext c.minipageSize n
    · obtain ⟨rel₁, info₁, before₁, heq₁, hopen₁, hcount₁⟩ :=
        insertPlaceholder_spec hopen horder hsize p.2 hafter (by rw [hcount]; exact hroom)
      dsimp only
      rw [heq₁, ok_bind, hfits, ← countAfter_placeholder hsize n hk, ← hcount, ← hcount₁]
      simp only [show roomForNext c.minipageSize info.entries.length by rw [hcount]; exact hroom,
        true_and]
      exact hrest hopen₁
    · dsimp only
      rw [insertPlaceholder_overflow p.2 (by rw [hcount]; exact hroom)]
      exact ⟨fun h => absurd (hfits.mp h).1 hroom, fun _ => rfl⟩

theorem insertCommands_spec (cs : List InsertCommand) {rel : BlkdirRel} {es : List MinipageEntry}
    {n : Nat} (h : Closed segno columnGroupNo rel es n) (horder : InOrder es)
    (hfollow : Follow cs es) :
    (commandsFit cs n → ∃ rel' n', insertCommands segno columnGroupNo cs rel = .ok rel' ∧
      Closed segno columnGroupNo rel' (es ++ cs.flatMap (·.inserted)) n') ∧
      (¬ commandsFit cs n → insertCommands segno columnGroupNo cs rel =
      .error .minipageOverflow) := by
  induction cs generalizing rel es n with
  | nil =>
    exact ⟨fun _ => ⟨rel, n, rfl, by rwa [flatMap_nil, append_nil]⟩,
      fun hfit => absurd trivial hfit⟩
  | cons c cs ih =>
    obtain ⟨hc, hcs⟩ := hfollow
    obtain ⟨hok, herr⟩ := insertCommand_spec h horder hc
    unfold commandsFit insertCommands
    rw [flatMap_cons, ← append_assoc]
    by_cases hfits : countFits c.minipageSize n c.inserted.length
    · obtain ⟨rel₁, heq₁, hclosed₁⟩ := hok hfits
      rw [heq₁, ok_bind]
      simp only [hfits, true_and]
      exact ih hclosed₁ (hc.inOrder horder) hcs
    · rw [herr hfits]
      exact ⟨fun h => absurd h.1 hfits, fun _ => rfl⟩

theorem InOrder.flatMap_inserted (cs : List InsertCommand) {es : List MinipageEntry}
    (h : InOrder es) (hfollow : Follow cs es) : InOrder (es ++ cs.flatMap (·.inserted)) := by
  induction cs generalizing es with
  | nil =>
    rwa [flatMap_nil, append_nil]
  | cons c cs ih =>
    rw [flatMap_cons, ← append_assoc]
    exact ih (hfollow.1.inOrder h) hfollow.2

end Commands

/-- The stored minipages, read in the order of the index, have the entries `es`: they are in order,
disjoint and found under the row they begin with. -/
structure BlkdirRel.Holds (rel : BlkdirRel) (segno columnGroupNo : Nat) (es : List MinipageEntry) :
    Prop where
  entries : (rel.inOrder segno columnGroupNo).flatMap (·.minipage) = es
  inOrder : InOrder es
  keyed : ∀ t ∈ rel.inOrder segno columnGroupNo, t.Keyed
  bound : ∀ t ∈ rel.inOrder segno columnGroupNo, t.minipage.length ≤ NUM_MINIPAGE_ENTRIES

/-- **The block directory after any insert commands** into a segment file and column that had no
entries: the commands end, without a minipage larger than its array, and exactly their entries are
stored, if and only if each of them fits. -/
theorem insertCommands_exact {segno columnGroupNo : Nat} {rel : BlkdirRel} (cs : List InsertCommand)
    (hwf : rel.Wf) (hnone : rel.tuplesOf segno columnGroupNo = []) (hfollow : Follow cs []) :
    (∃ rel', insertCommands segno columnGroupNo cs rel = .ok rel' ∧
      rel'.Holds segno columnGroupNo (cs.flatMap (·.inserted))) ↔ commandsFit cs 0 := by
  have hclosed : Closed segno columnGroupNo rel [] 0 := by
    refine ⟨hwf, ?_, ?_, by rw [hnone]; rfl, by rw [hnone]; rfl⟩ <;>
    · rw [hnone]
      exact nofun
  have hnil : InOrder [] := ⟨nofun, List.Pairwise.nil⟩
  have horder := InOrder.flatMap_inserted cs hnil hfollow
  obtain ⟨hok, herr⟩ := insertCommands_spec cs hclosed hnil hfollow
  constructor
  · rintro ⟨rel', heq, -⟩
    by_contra hfit
    rw [herr hfit] at heq
    exact absurd heq (by simp)
  intro hfit
  obtain ⟨rel', n', heq, h⟩ := hok hfit
  have hin := h.inOrder_eq horder
  exact ⟨rel', heq, by rw [hin]; exact h.entries, horder, by rw [hin]; exact h.keyed,
    by rw [hin]; exact h.bound⟩

instance : DecidableRel MinipageEntry.Before := fun a b =>
  inferInstanceAs (Decidable (a.firstRowNum + a.rowCount ≤ b.firstRowNum))

/-- Two commands, the first of them with a placeholder. -/
def twoCommands : List InsertCommand :=
  [⟨2, 0, some (1, 0), [⟨1, 0, 10⟩, ⟨11, 80, 10⟩, ⟨21, 160, 5⟩]⟩,
  ⟨1, 100, none, [⟨101, 200, 4⟩, ⟨105, 240, 4⟩]⟩]

theorem insertCommands_exact_two : ∃ rel', insertCommands 1 0 twoCommands ⟨[], 0⟩ = .ok rel' ∧
    rel'.Holds 1 0 [⟨1, 0, 10⟩, ⟨11, 80, 10⟩, ⟨21, 160, 5⟩, ⟨101, 200, 4⟩, ⟨105, 240, 4⟩] :=
  (insertCommands_exact twoCommands ⟨by decide, by decide⟩ rfl
    ⟨⟨by decide, by decide, by decide, by decide, by decide, by decide⟩,
      ⟨by decide, by decide, by decide, by decide, by decide, by decide⟩, trivial⟩).mpr
    ⟨by decide, by decide, trivial⟩

/-- Two entries under the setting 2, then 160 entries under the setting 1. -/
def smallerSetting : List InsertCommand :=
  [⟨2, 0, none, [⟨1, 0, 1⟩, ⟨2, 8, 1⟩]⟩,
  ⟨1, 100, none, (List.range 160).map fun i => ⟨101 + i, 16 + 8 * i, 1⟩⟩]

/-- The second command finds two entries, never exactly one, and writes behind the array of 161. -/
theorem insertCommands_smallerSetting : Follow smallerSetting [] ∧
    insertCommands 1 0 smallerSetting ⟨[], 0⟩ = .error .minipageOverflow :=
  ⟨⟨⟨by decide, by decide, by decide, by decide, by decide, by decide⟩,
    ⟨by decide +kernel, by decide +kernel, by decide, by decide +kernel, by decide +kernel,
    by decide +kernel⟩, trivial⟩, by decide +kernel⟩

end PolemoDB.AppendOnly
