import PolemoDB.Bitmap.XlogWrite

/-!
# Replaying appended bitmap words

Every page is compared with the page of the primary at the same position of the log. A page that is
restored from an image or that was already past a record is the primary's; a page that was changed
by the data of a record has the primary's words, used words and last tid, and the primary's next
pointer unless it is the last page of the record.

* `replay_agrees_iff` — when the pages and the LOV item are exactly the primary's.
-/

namespace PolemoDB.Bitmap

open PolemoDB.Lib List Option WrittenPage Nat BMLOVItem

/-! ## The blocks of a record -/

section

variable (idx : BitmapIndex) (pageImage : Nat → Bool) (n : Nat)

theorem logPages_blknos (ws : List WrittenPage) :
    (logPages idx pageImage n ws).map XlBlock.blkno = ws.map blkno := by
  induction ws generalizing n with
  | nil => rfl
  | cons w ws ih =>
    unfold logPages
    rw [map_cons, map_cons, ih]
    rfl

theorem logPages_mem (pre : List WrittenPage) (w : WrittenPage)
    (rest : List WrittenPage) : logBlock idx (pageImage (n + pre.length) || w.isNew) w
      (rest.head?.map blkno) ∈ logPages idx pageImage n (pre ++ w :: rest) := by
  induction pre generalizing n with
  | nil => exact mem_cons_self
  | cons u pre ih =>
    have hmem := ih (n + 1)
    rw [show n + 1 + pre.length = n + (u :: pre).length by rw [length_cons]; omega] at hmem
    exact mem_cons_of_mem _ hmem

theorem logPages_getLast (pre : List WrittenPage) (w : WrittenPage) :
    (logPages idx pageImage n (pre ++ [w])).getLast? =
      some (logBlock idx (pageImage (n + pre.length) || w.isNew) w none) := by
  induction pre generalizing n with
  | nil => rfl
  | cons u pre ih =>
    have hlast := ih (n + 1)
    rw [show n + 1 + pre.length = n + (u :: pre).length by rw [length_cons]; omega] at hlast
    rw [cons_append]
    unfold logPages
    rw [getLast?_cons, hlast]
    rfl

end

variable {ws : List WrittenPage} {blks : List XlBlock} {hist : Nat → BitmapIndex} {N used : Nat}

theorem logPages_image (idx : BitmapIndex) (pageImage : Nat → Bool) (n : Nat)
    (hnew : ∀ w ∈ ws, w.isNew = true) : ∀ blk ∈ logPages idx pageImage n ws, blk.image ≠ none := by
  induction ws generalizing n with
  | nil =>
    intro blk hblk
    cases hblk
  | cons w ws ih =>
    intro blk hblk
    rcases mem_cons.1 hblk with rfl | hblk
    · have := hnew w mem_cons_self
      simp [logBlock, this]
    · exact ih (n + 1) (fun v hv => hnew v (mem_cons_of_mem _ hv)) blk hblk

theorem redoBlocks_frame (lsn : Nat) (blks : List XlBlock) (sb : Standby) (last : Nat) :
    (redoBlocks lsn blks (sb, last)).1.lov = sb.lov ∧
    ∀ b, b ∉ blks.map XlBlock.blkno → (redoBlocks lsn blks (sb, last)).1.pages b = sb.pages b := by
  induction blks generalizing sb last with
  | nil => exact ⟨rfl, fun _ _ => rfl⟩
  | cons blk blks ih =>
    obtain ⟨hlov, hpages⟩ := ih { sb with
      pages := fun b => if b = blk.blkno then redoBlock lsn blk (sb.pages blk.blkno) else sb.pages b
        }
      (if readBufferForRedo lsn blk.image (sb.pages blk.blkno) =
        .needsRedo then blk.data.bmpBlkno else last)
    refine ⟨hlov, fun b hb => ?_⟩
    rw [map_cons, mem_cons, not_or] at hb
    exact (hpages b hb.2).trans (if_neg hb.1)

theorem redoBlocks_get (lsn : Nat) (hnodup : (blks.map XlBlock.blkno).Nodup) (sb : Standby)
    (last : Nat) {blk : XlBlock} (hmem : blk ∈ blks) :
    (redoBlocks lsn blks (sb, last)).1.pages blk.blkno =
    redoBlock lsn blk (sb.pages blk.blkno) := by
  induction blks generalizing sb last with
  | nil => cases hmem
  | cons u blks ih =>
    rw [map_cons, nodup_cons] at hnodup
    rcases mem_cons.1 hmem with rfl | hmem
    · exact ((redoBlocks_frame lsn blks _ _).2 _ hnodup.1).trans (if_pos rfl)
    have hne : blk.blkno ≠ u.blkno := fun heq => hnodup.1 (heq ▸ List.mem_map_of_mem hmem)
    refine (ih hnodup.2 _ _ hmem).trans ?_
    dsimp only
    rw [if_neg hne]

theorem redoBlocks_last (lsn : Nat) (himage : ∀ blk ∈ blks, blk.image ≠ none) (sb : Standby)
    (last : Nat) : (redoBlocks lsn blks (sb, last)).2 = last := by
  induction blks generalizing sb last with
  | nil => rfl
  | cons blk blks ih =>
    obtain ⟨page, hpage⟩ := ne_none_iff_exists'.1 (himage blk mem_cons_self)
    refine (ih (fun u hu => himage u (mem_cons_of_mem _ hu)) _ _).trans ?_
    rw [hpage]
    rfl

/-! ## What replay can have made of the pages -/

/-- The block is the last page of the LOV item. -/
def BitmapIndex.IsTail (idx : BitmapIndex) (b : Nat) : Prop :=
  idx.lov.bmLovHead ≠ none ∧ idx.lov.bmLovTail = some b

/-- A page that replay up to position `i` can have: the page of the primary at a later position, or
the page of the primary at `i`, where the next pointer of the last page of the LOV item may be
another one. -/
def PageReached (hist : Nat → BitmapIndex) (N i b : Nat) (x : Option (Nat × BMBitmapPage)) : Prop :=
  match x with
  | none => (hist i).pages[b]? = none
  | some (l, p) => i ≤ l ∧ l ≤ N ∧ (hist l).pages[b]? = some p ∨
      l ≤ i ∧ ∃ q, (hist i).pages[b]? = some q ∧ p.SameWords q ∧ (¬ (hist i).IsTail b → p = q)

/-- A LOV item that replay up to position `i` can have; its last page may be another one. -/
def LovReached (hist : Nat → BitmapIndex) (N i : Nat) (x : Nat × BMLOVItem) : Prop :=
  i ≤ x.1 ∧ x.1 ≤ N ∧ x.2 = (hist x.1).lov ∨
    x.1 ≤ i ∧ { x.2 with bmLovTail := (hist i).lov.bmLovTail } = (hist i).lov

structure Reached (hist : Nat → BitmapIndex) (N i : Nat) (sb : Standby) : Prop where
  page : ∀ b, PageReached hist N i b (sb.pages b)
  lov : LovReached hist N i sb.lov

/-- The LOV item is changed by the data of the record. -/
def Standby.LovNeedsRedo (sb : Standby) (lsn : Nat) (xlrec : XlBitmapwords) : Prop :=
  readBufferForRedo lsn xlrec.lovImage (some sb.lov) = .needsRedo

section Step

variable {hist : Nat → BitmapIndex} {N i : Nat} {w : LoggedWrite} {xlrec : XlBitmapwords}
  {ws pre rest : List WrittenPage} {v : WrittenPage} {image : Bool}
  {x : Option (Nat × BMBitmapPage)}

section

variable (hl : Logged (hist i) w (hist (i + 1)) xlrec ws)
include hl

section

variable (hsplit : ws = pre ++ v :: rest)
include hsplit

theorem Logged.getD : (hist (i + 1)).pages.getD v.blkno bitmapInitBitmappage = v.linkTo rest := by
  rw [getD_eq_getElem?_getD, hl.get pre v rest hsplit]
  rfl

theorem Logged.data_eq (image : Bool) (next : Option Nat) :
    (logBlock (hist (i + 1)) image v next).data = { v.xlrec with
      bmNextBlkno := (logBlock (hist (i + 1)) image v next).data.bmNextBlkno
      hwords := (v.page.hwords.drop v.xlrec.bmpStartHwordNo).take v.xlrec.bmpNumHwords
      cwords := (v.page.cwords.drop v.xlrec.bmpStartCwordNo).take v.xlrec.bmpNumCwords } := by
  have hwords : (v.linkTo rest).hwords = v.page.hwords ∧
      (v.linkTo rest).cwords = v.page.cwords := by
    cases rest with
    | nil | cons u rest => exact ⟨rfl, rfl⟩
  unfold logBlock
  dsimp only
  rw [hl.getD hsplit, hwords.1, hwords.2]

theorem redoBlock_exact (hi : i < N)
    (himage : image = false → v.isNew = false) (hx : PageReached hist N i v.blkno x)
    (next : Option Nat) (haction :
    readBufferForRedo (i + 1) (logBlock (hist (i + 1)) image v next).image x ≠ .needsRedo) :
    ∃ l p, redoBlock (i + 1) (logBlock (hist (i + 1)) image v next) x = some (l, p) ∧ i + 1 ≤ l ∧
      l ≤ N ∧ (hist l).pages[v.blkno]? = some p := by
  cases himg : image with
  | true =>
    refine ⟨i + 1, v.linkTo rest, ?_, le_refl _, hi, hl.get pre v rest hsplit⟩
    unfold redoBlock logBlock
    rw [hl.getD hsplit]
    rfl
  | false =>
    rw [himg] at haction
    have hnone : (logBlock (hist (i + 1)) false v next).image = none := rfl
    cases x with
    | none =>
      -- the block exists on the primary, so the replay has it as well
      have hv : v ∈ ws := by
        rw [hsplit]
        simp
      obtain ⟨before, -, -, -, hbefore⟩ := (hl.ok v hv).written
      have hx' : (hist i).pages[v.blkno]? = none := hx
      rw [hbefore (himage himg)] at hx'
      cases hx'
    | some y =>
      obtain ⟨l, p⟩ := y
      have hle : l ≥ i + 1 := by
        by_contra hlt
        apply haction
        exact if_neg hlt
      refine ⟨l, p, ?_, hle, ?_⟩
      · unfold redoBlock
        rw [hnone]
        have haction' : readBufferForRedo (i + 1) (none : Option BMBitmapPage) (some (l, p)) =
            .done := if_pos hle
        rw [haction']
      · rcases hx with ⟨-, hN, hp⟩ | ⟨hle', -⟩
        · exact ⟨hN, hp⟩
        · omega

theorem redoBlock_redo
    (hx : PageReached hist N i v.blkno x) (himage : image = false → v.isNew = false)
    (haction : readBufferForRedo (i + 1)
      (logBlock (hist (i + 1)) image v (rest.head?.map blkno)).image x = .needsRedo) :
    redoBlock (i + 1) (logBlock (hist (i + 1)) image v (rest.head?.map blkno)) x =
      some (i + 1, { v.linkTo rest with bitmapNext := some ((rest.head?.map blkno).getD 0) }) := by
  have hv : v ∈ ws := by
    rw [hsplit]
    simp
  cases himg : image with
  | true =>
    rw [himg] at haction
    unfold logBlock readBufferForRedo at haction
    simp at haction
  | false =>
    have hold := himage himg
    obtain ⟨before, hsized, -, hnoted, hbefore⟩ := (hl.ok v hv).written
    have hdata := hl.data_eq hsplit false (rest.head?.map blkno)
    rw [himg] at haction
    cases x with
    | none =>
      unfold logBlock readBufferForRedo at haction
      simp at haction
    | some y =>
      obtain ⟨l, p⟩ := y
      have hle : l ≤ i := by
        unfold logBlock readBufferForRedo at haction
        simp only [Bool.false_eq_true, if_false] at haction
        split at haction
        · cases haction
        · omega
      have hsame : p.SameWords before := by
        rcases hx with ⟨hge, -, hp⟩ | ⟨-, q, hq, hsame, -⟩
        · obtain rfl : l = i := by omega
          rw [hbefore hold] at hp
          exact BMBitmapPage.SameWords.of_eq (some.inj hp).symm
        · rw [hbefore hold] at hq
          rw [some.inj hq]
          exact hsame
      have hredo := redoPerpage_eq hsized hnoted hsame hdata
      unfold redoBlock
      rw [haction]
      dsimp only [map_some]
      rw [hredo]
      have hnext : (logBlock (hist (i + 1)) false v (rest.head?.map blkno)).data.bmNextBlkno =
          (rest.head?.map blkno).getD 0 := by
        unfold logBlock
        dsimp only
        rw [hnoted.noNext]
      rw [hnext]
      cases rest with
      | nil | cons u rest => rfl

end

theorem Logged.blocks_eq : xlrec.blocks = logPages (hist (i + 1)) w.pageImage 0 ws :=
  by rw [hl.xlrec]; rfl

theorem Logged.nodup : (xlrec.blocks.map XlBlock.blkno).Nodup := by
  rw [hl.blocks_eq, logPages_blknos]
  refine List.Pairwise.map _ ?_ hl.sorted
  omega

theorem redoBitmapwords_pages (sb : Standby) :
    (∀ b, b ∉ ws.map blkno → (redoBitmapwords (i + 1) xlrec sb).pages b = sb.pages b) ∧
    ∀ pre v rest, ws = pre ++ v :: rest → (redoBitmapwords (i + 1) xlrec sb).pages v.blkno =
      redoBlock (i + 1) (logBlock (hist (i + 1)) (w.pageImage pre.length || v.isNew) v
        (rest.head?.map blkno)) (sb.pages v.blkno) := by
  have hnodup := hl.nodup
  have hblknos : xlrec.blocks.map XlBlock.blkno = ws.map blkno := by
    rw [hl.blocks_eq, logPages_blknos]
  obtain ⟨first, hfirst⟩ : ∃ first, (redoBitmapwords (i + 1) xlrec sb).pages =
      (redoBlocks (i + 1) xlrec.blocks (sb, first)).1.pages := by
    unfold redoBitmapwords
    cases xlrec.blocks with
    | nil => exact ⟨0, rfl⟩
    | cons blk blks => exact ⟨blk.blkno, rfl⟩
  rw [hfirst]
  refine ⟨fun b hb => (redoBlocks_frame _ _ _ _).2 b (hblknos ▸ hb), fun pre v rest hsplit => ?_⟩
  have hmem := logPages_mem (hist (i + 1)) w.pageImage 0 pre v rest
  rw [← hsplit, ← hl.blocks_eq, zero_add] at hmem
  exact redoBlocks_get (i + 1) hnodup sb first hmem

theorem redoBitmapwords_lov (sb : Standby) {u : WrittenPage} (hws : ws = u :: rest) :
    (redoBitmapwords (i + 1) xlrec sb).lov = redoLov (i + 1) xlrec u.blkno u.blkno sb.lov := by
  have hnew : ∀ v ∈ rest, v.isNew = true := by
    have htail := hl.tailNew
    rw [hws] at htail
    exact htail
  have hublk : u.xlrec.bmpBlkno = u.blkno := (hl.ok u (by rw [hws]; exact mem_cons_self)).blkno
  unfold redoBitmapwords
  rw [hl.blocks_eq, hws]
  unfold logPages
  unfold redoBlocks
  dsimp only
  rw [redoBlocks_last _ (logPages_image _ _ _ hnew), (redoBlocks_frame _ _ _ _).1]
  have hlast : (logBlock (hist (i + 1)) (w.pageImage 0 || u.isNew) u
      (rest.head?.map blkno)).data.bmpBlkno = u.blkno := hublk
  rw [hlast]
  split
  · rfl
  · rfl

theorem redoLovItem_eq {u : WrittenPage} (hws : ws = u :: rest)
    {lov : BMLOVItem} (hlov : { lov with bmLovTail := (hist i).lov.bmLovTail } = (hist i).lov) :
    redoLovItem xlrec u.blkno u.blkno lov =
    { (hist (i + 1)).lov with bmLovTail := some u.blkno } := by
  have hhead : lov.bmLovHead = (hist i).lov.bmLovHead := (congrArg bmLovHead hlov :)
  unfold redoLovItem
  rw [hl.lov, hl.xlrec, hws, hhead]
  unfold logBitmapwords setLast
  simp

/-- The LOV item behind the record: one of the primary, or the primary's with the first page of the
record as its last one. -/
theorem redoBitmapwords_lov_cases (hi : i < N) {sb : Standby} (h : Reached hist N i sb)
    {u : WrittenPage} (hws : ws = u :: rest) :
    (¬ sb.LovNeedsRedo (i + 1) xlrec ∧ ∃ l, i + 1 ≤ l ∧ l ≤ N ∧
      (redoBitmapwords (i + 1) xlrec sb).lov = (l, (hist l).lov)) ∨
    sb.LovNeedsRedo (i + 1) xlrec ∧ (redoBitmapwords (i + 1) xlrec sb).lov =
      (i + 1, { (hist (i + 1)).lov with bmLovTail := some u.blkno }) := by
  have hlov := h.lov
  rw [redoBitmapwords_lov hl sb hws]
  unfold redoLov Standby.LovNeedsRedo readBufferForRedo
  cases himg : xlrec.lovImage with
  | some img =>
    refine .inl ⟨nofun, i + 1, le_refl _, hi, ?_⟩
    rw [hl.xlrec] at himg
    unfold logBitmapwords at himg
    dsimp only at himg ⊢
    split at himg
    · rw [← some.inj himg]
    · cases himg
  | none =>
    dsimp only
    by_cases hge : sb.lov.1 ≥ i + 1
    · rw [if_pos hge, if_pos hge]
      rcases hlov with ⟨-, hN, heq⟩ | ⟨hle, -⟩
      · exact .inl ⟨nofun, _, hge, hN, by rw [← heq]⟩
      · omega
    rw [if_neg hge, if_neg hge]
    have hlov' : { sb.lov.2 with bmLovTail := (hist i).lov.bmLovTail } = (hist i).lov := by
      rcases hlov with ⟨hge', -, heq⟩ | ⟨-, heq⟩
      · have hpos : sb.lov.1 = i := by omega
        rw [heq, hpos]
      · exact heq
    exact .inr ⟨rfl, by rw [redoLovItem_eq hl hws hlov']⟩

/-- **One record keeps what replay can have made of the pages.** -/
theorem redoBitmapwords_reached
    (hi : i < N) {sb : Standby} (h : Reached hist N i sb) :
    Reached hist N (i + 1) (redoBitmapwords (i + 1) xlrec sb) := by
  obtain ⟨hframe, hget⟩ := redoBitmapwords_pages hl sb
  obtain ⟨u, rest, hws⟩ := exists_cons_of_ne_nil hl.nonempty
  constructor
  · intro b
    by_cases hb : b ∈ ws.map blkno
    · obtain ⟨v, hv, rfl⟩ := List.mem_map.1 hb
      obtain ⟨pre, rest', hsplit⟩ := append_of_mem hv
      rw [hget pre v rest' hsplit]
      have himage : (w.pageImage pre.length || v.isNew) = false → v.isNew = false :=
        fun h => (Bool.or_eq_false_iff.1 h).2
      by_cases haction : readBufferForRedo (i + 1)
        (logBlock (hist (i + 1)) (w.pageImage pre.length || v.isNew) v
          (rest'.head?.map blkno)).image (sb.pages v.blkno) = .needsRedo
      · rw [redoBlock_redo hl hsplit (h.page v.blkno) himage haction]
        refine .inr ⟨le_refl _, v.linkTo rest', hl.get pre v rest' hsplit, rfl, fun hnot => ?_⟩
        cases rest' with
        | nil =>
          refine absurd ⟨?_, ?_⟩ hnot
          · rw [hl.lov, hws]
            simp only [setLast]
            split
            · simp
            next hsome => simpa [isNone_iff_eq_none] using hsome
          · rw [hl.lov, hsplit]
            simp [setLast]
        | cons u' rest' => rfl
      · obtain ⟨l, p, hredo, hle, hN, hp⟩ :=
          redoBlock_exact hl hsplit hi himage (h.page v.blkno) (rest'.head?.map blkno) haction
        rw [hredo]
        exact .inl ⟨hle, hN, hp⟩
    · rw [hframe b hb]
      have hsame := hl.frame b hb
      have hpage := h.page b
      cases hx : sb.pages b with
      | none =>
        rw [hx] at hpage
        exact hsame.trans hpage
      | some y =>
        obtain ⟨l, p⟩ := y
        rw [hx] at hpage
        rcases hpage with ⟨hle, hN, hp⟩ | ⟨hle, q, hq, hsw, hexact⟩
        · rcases lt_or_ge i l with hlt | hge
          · exact .inl ⟨hlt, hN, hp⟩
          · obtain rfl : l = i := by omega
            exact .inr ⟨le_succ _, p, hsame.trans hp, rfl, fun _ => rfl⟩
        refine .inr ⟨le_succ_of_le hle, q, hsame.trans hq, hsw, fun _ => hexact ?_⟩
        -- the last page before the record is its first page
        rintro ⟨hhead, htail⟩
        obtain ⟨v, hv, htail'⟩ := hl.tail hhead
        rw [htail] at htail'
        refine hb (List.mem_map.2 ⟨v, mem_of_mem_head? hv, (some.inj htail').symm⟩)
  · rcases redoBitmapwords_lov_cases hl hi h hws with ⟨-, l, hle, hN, heq⟩ | ⟨-, heq⟩
    · rw [heq]
      exact .inl ⟨hle, hN, rfl⟩
    · rw [heq]
      exact .inr ⟨le_refl _, rfl⟩

end

end Step

/-! ## Whole logs -/

/-- The pages and the LOV item are those of the index. -/
structure Standby.Agrees (sb : Standby) (idx : BitmapIndex) : Prop where
  pages : ∀ b, (sb.pages b).map Prod.snd = idx.pages[b]?
  lov : sb.lov.2 = idx.lov

/-- The last page of a record is changed by the data of the record. -/
def Standby.LastPageNeedsRedo (sb : Standby) (lsn : Nat) (xlrec : XlBitmapwords) : Prop :=
  ∃ blk, xlrec.blocks.getLast? = some blk ∧
  readBufferForRedo lsn blk.image (sb.pages blk.blkno) = .needsRedo

/-- A page that replay has reached and that is not the last one of the LOV item is the primary's. -/
theorem PageReached.exact {b : Nat} {x : Option (Nat × BMBitmapPage)}
    (h : PageReached hist N N b x) (hnot : ¬ (hist N).IsTail b) :
    x.map Prod.snd = (hist N).pages[b]? := by
  cases x with
  | none => exact h.symm
  | some y =>
    obtain ⟨l, p⟩ := y
    rcases h with ⟨hle, hN, hp⟩ | ⟨-, q, hq, -, hexact⟩
    · obtain rfl : l = N := by omega
      exact hp.symm
    · rw [hexact hnot, hq]
      rfl

theorem redoBitmapwords_agrees_iff {w : LoggedWrite} {xlrec : XlBitmapwords}
    (hl : Logged (hist N) w (hist (N + 1)) xlrec ws) {sb : Standby}
    (h : Reached hist (N + 1) N sb) :
    (redoBitmapwords (N + 1) xlrec sb).Agrees (hist (N + 1)) ↔
      ¬ sb.LastPageNeedsRedo (N + 1) xlrec ∧
      (¬ sb.LovNeedsRedo (N + 1) xlrec ∨ xlrec.blocks.length = 1) := by
  have hreached := redoBitmapwords_reached hl (lt_succ_self N) h
  obtain ⟨-, hget⟩ := redoBitmapwords_pages hl sb
  obtain ⟨u, rest, hws⟩ := exists_cons_of_ne_nil hl.nonempty
  obtain ⟨pre, v, hsplit⟩ := eq_nil_or_concat ws |>.resolve_left hl.nonempty
  rw [concat_eq_append] at hsplit
  have hv : v ∈ ws := by
    rw [hsplit]
    simp
  have himage : (w.pageImage pre.length || v.isNew) = false → v.isNew = false :=
    fun h => (Bool.or_eq_false_iff.1 h).2
  have hlast : xlrec.blocks.getLast? =
      some (logBlock (hist (N + 1)) (w.pageImage pre.length || v.isNew) v none) := by
    rw [hl.blocks_eq, hsplit, logPages_getLast, zero_add]
  have hlen : xlrec.blocks.length = ws.length := by
    have := congrArg length (logPages_blknos (hist (N + 1)) w.pageImage 0 ws)
    rwa [← hl.blocks_eq, length_map, length_map] at this
  have htail : (hist (N + 1)).lov.bmLovTail = some v.blkno := by
    rw [hl.lov, hsplit]
    simp [setLast]
  have hlastGet := hget pre v [] hsplit
  have hvpage := hl.get pre v [] hsplit
  -- the first page of the record is its last one
  have hone : u.blkno = v.blkno ↔ xlrec.blocks.length = 1 := by
    rw [hlen]
    cases pre with
    | nil =>
      rw [hws, nil_append, cons.injEq] at hsplit
      rw [hws, hsplit.1, hsplit.2]
      exact iff_of_true rfl rfl
    | cons u' pre =>
      have hlt := hl.sorted
      rw [hsplit, cons_append] at hws
      rw [hsplit, cons_append, (cons.inj hws).1, pairwise_cons] at hlt
      refine iff_of_false (hlt.1 v (by simp)).ne ?_
      rw [hsplit]
      simp
  have hlov : (redoBitmapwords (N + 1) xlrec sb).lov.2 = (hist (N + 1)).lov ↔
      ¬ sb.LovNeedsRedo (N + 1) xlrec ∨ xlrec.blocks.length = 1 := by
    rcases redoBitmapwords_lov_cases hl (lt_succ_self N) h hws with ⟨hno, l, hle, hN, heq⟩ | ⟨hredo,
      heq⟩
    · obtain rfl : l = N + 1 := by omega
      rw [heq]
      exact iff_of_true rfl (.inl hno)
    rw [heq, or_iff_right (not_not_intro hredo), ← hone]
    constructor
    · intro hlovEq
      have htail' := congrArg bmLovTail hlovEq
      rw [htail] at htail'
      exact some.inj htail'
    · intro huv
      rw [huv, ← htail]
  constructor
  · intro hagrees
    refine ⟨?_, hlov.1 hagrees.lov⟩
    rintro ⟨blk, hblk, haction⟩
    rw [hlast] at hblk
    obtain rfl := some.inj hblk
    -- the next pointer of the last page becomes block 0
    have hredo := redoBlock_redo hl hsplit (h.page v.blkno) himage haction
    have hpage := hagrees.pages v.blkno
    rw [hlastGet, hredo, hvpage] at hpage
    have hnext := congrArg (Option.map BMBitmapPage.bitmapNext) hpage
    simp only [map_some] at hnext
    rw [linkTo_last (hl.ok v hv)] at hnext
    simp at hnext
  · rintro ⟨hpageOk, hlovOk⟩
    refine ⟨fun b => ?_, hlov.2 hlovOk⟩
    by_cases hb : (hist (N + 1)).IsTail b
    · have hbv : v.blkno = b := some.inj (htail.symm.trans hb.2)
      subst hbv
      have haction : readBufferForRedo (N + 1)
          (logBlock (hist (N + 1)) (w.pageImage pre.length || v.isNew) v
          none).image (sb.pages v.blkno) ≠ .needsRedo := fun hredo => hpageOk ⟨_, hlast, hredo⟩
      obtain ⟨l, p, hredo, hle, hN, hp⟩ :=
        redoBlock_exact hl hsplit (lt_succ_self N) himage (h.page v.blkno) none haction
      obtain rfl : l = N + 1 := by omega
      have hpage : (redoBitmapwords (N + 1) xlrec sb).pages v.blkno = some (N + 1, p) :=
        hlastGet.trans hredo
      rw [hpage, hp]
      rfl
    · exact (hreached.page b).exact hb

/-- The log of a run of the primary: `hist i` is the index after `i` records, and record `i` takes
it to `hist (i + 1)`. -/
structure LoggedRun (N : Nat) (hist : Nat → BitmapIndex) (writes : Nat → LoggedWrite)
    (log : Nat → XlBitmapwords) : Prop where
  linked : (hist 0).Linked
  words : ∀ i < N, 0 < (writes i).buf.curword
  step : ∀ i < N, writeLogged (hist i) (writes i) = .ok (hist (i + 1), log i)

/-- The pages where replay starts: each one as it was on the primary at a position of its own. -/
def standbyAt (hist : Nat → BitmapIndex) (pagePos : Nat → Nat) (lovPos : Nat) : Standby where
  pages b := (hist (pagePos b)).pages[b]?.map (pagePos b, ·)
  lov := (lovPos, (hist lovPos).lov)

/-- Replay of the first records; record `i` ends at position `i + 1`. -/
def replayLog (log : Nat → XlBitmapwords) (sb : Standby) : Nat → Standby
  | 0 => sb
  | n + 1 => redoBitmapwords (n + 1) (log n) (replayLog log sb n)

section Run

variable {hist : Nat → BitmapIndex} {writes : Nat → LoggedWrite} {log : Nat → XlBitmapwords}
  {N : Nat} {pagePos : Nat → Nat} {lovPos : Nat}

section

variable (h : LoggedRun N hist writes log)
include h

theorem LoggedRun.linkedAt {i : Nat} (hi : i ≤ N) : (hist i).Linked := by
  induction i with
  | zero => exact h.linked
  | succ i ih =>
    obtain ⟨ws, hl⟩ := writeLogged_spec (ih (by omega)) (h.step i hi)
    exact hl.linked (ih (by omega))

theorem LoggedRun.pages_mono {i j : Nat} (hij : i ≤ j) (hj : j ≤ N) {b : Nat}
    (hb : (hist j).pages[b]? = none) : (hist i).pages[b]? = none := by
  induction j with
  | zero =>
    obtain rfl : i = 0 := by omega
    exact hb
  | succ j ih =>
    rcases lt_or_ge j i with hlt | hle
    · obtain rfl : i = j + 1 := by omega
      exact hb
    obtain ⟨ws, hl⟩ := writeLogged_spec (h.linkedAt (by omega)) (h.step j hj)
    refine ih hle (by omega) ?_
    by_cases hmem : b ∈ ws.map blkno
    · obtain ⟨v, hv, rfl⟩ := List.mem_map.1 hmem
      obtain ⟨pre, rest, hsplit⟩ := append_of_mem hv
      rw [hl.get pre v rest hsplit] at hb
      cases hb
    · rw [← hl.frame b hmem]
      exact hb

theorem standbyAt_reached (hpages : ∀ b, pagePos b ≤ N) (hlov : lovPos ≤ N) :
    Reached hist N 0 (standbyAt hist pagePos lovPos) := by
  refine ⟨fun b => ?_, .inl ⟨zero_le _, hlov, rfl⟩⟩
  cases hget : (hist (pagePos b)).pages[b]? with
  | none =>
    have hx : (standbyAt hist pagePos lovPos).pages b = none := by
      unfold standbyAt
      dsimp only
      rw [hget]
      rfl
    rw [hx]
    exact h.pages_mono (zero_le _) (hpages b) hget
  | some p =>
    have hx : (standbyAt hist pagePos lovPos).pages b = some (pagePos b, p) := by
      unfold standbyAt
      dsimp only
      rw [hget]
      rfl
    rw [hx]
    exact .inl ⟨zero_le _, hpages b, hget⟩

/-- **What replay of the first `i` records can have made of the pages.** -/
theorem replay_reached (hpages : ∀ b, pagePos b ≤ N) (hlov : lovPos ≤ N) {i : Nat}
    (hi : i ≤ N) : Reached hist N i (replayLog log (standbyAt hist pagePos lovPos) i) := by
  induction i with
  | zero => exact standbyAt_reached h hpages hlov
  | succ i ih =>
    obtain ⟨ws, hl⟩ := writeLogged_spec (h.linkedAt (by omega)) (h.step i hi)
    exact redoBitmapwords_reached hl hi (ih (by omega))

end

/-- **Replay leaves the pages and the LOV item of the primary exactly if**, in the last record, the
last page is not changed by the data of the record, and neither is the LOV item unless the record
has one page. -/
theorem replay_agrees_iff (h : LoggedRun (N + 1) hist writes log) (hpages : ∀ b, pagePos b ≤ N + 1)
    (hlov : lovPos ≤ N + 1) :
    (replayLog log (standbyAt hist pagePos lovPos) (N + 1)).Agrees (hist (N + 1)) ↔
      ¬ (replayLog log (standbyAt hist pagePos lovPos) N).LastPageNeedsRedo (N + 1) (log N) ∧
        (¬ (replayLog log (standbyAt hist pagePos lovPos) N).LovNeedsRedo (N + 1) (log N) ∨
          (log N).blocks.length = 1) := by
  obtain ⟨ws, hl⟩ := writeLogged_spec (h.linkedAt (le_succ N)) (h.step N (lt_succ_self N))
  exact redoBitmapwords_agrees_iff hl (replay_reached h hpages hlov (le_succ N))

end Run

/-! ## Two logs of one record -/

/-- A relation with one page for the LOV item, at block 1; `used` words of the page are used. -/
def onePage (used : Nat) : BitmapIndex where
  pages := [bitmapInitBitmappage, { bitmapInitBitmappage with hrlWordsUsed := used }]
  lov :=
    { bmLovHead := some 1
      bmLovTail := some 1
      bmLastCompword := LITERAL_ALL_ONE
      bmLastWord := 0
      bmLastTidLocation := 0
      bmLastSetbit := 0
      lovWordsHeader := 0 }

theorem onePage_linked (h : used ≤ BM_NUM_OF_HRL_WORDS_PER_PAGE) : (onePage used).Linked := by
  refine ⟨fun b page hget => ?_, fun _ => ⟨1, _, rfl, rfl, rfl⟩⟩
  have hmem : page ∈ (onePage used).pages := mem_of_getElem? hget
  rcases mem_cons.1 hmem with rfl | hmem
  · exact bitmapInitBitmappage_sized
  · rw [mem_singleton.1 hmem]
    exact ⟨bitmapInitBitmappage_sized.hwords, bitmapInitBitmappage_sized.cwords, h⟩

/-- One literal word to write; the bitmap page gets an image or not, the LOV page does not. -/
def oneWord (image : Bool) : LoggedWrite where
  buf := { BMTIDBuffer.zero with
    curword := 1, numCwords := 8, cwords := [5], lastTids := [64], lastTid := 70 }
  lovImage := false
  pageImage _ := image

def afterWrite (used : Nat) (image : Bool) : BitmapIndex × XlBitmapwords :=
  (writeLogged (onePage used) (oneWord image)).toOption.getD (onePage used,
  ⟨false, 0, 0, 0, 0, none, []⟩)

def historyOf (used : Nat) (image : Bool) : Nat → BitmapIndex
  | 0 => onePage used
  | _ + 1 => (afterWrite used image).1

theorem historyOf_run (h : used ≤ BM_NUM_OF_HRL_WORDS_PER_PAGE) (image : Bool)
    (hw : ∃ r, writeLogged (onePage used) (oneWord image) = .ok r) :
    LoggedRun 1 (historyOf used image) (fun _ => oneWord image)
    (fun _ => (afterWrite used image).2) := by
  refine ⟨onePage_linked h, fun _ _ => zero_lt_one, fun i hi => ?_⟩
  obtain rfl : i = 0 := by omega
  obtain ⟨r, hr⟩ := hw
  have hafter : afterWrite used image = r := by
    unfold afterWrite
    rw [hr]
    rfl
  show writeLogged (onePage used) (oneWord image) =
    .ok ((afterWrite used image).1, (afterWrite used image).2)
  rw [hr, hafter]

theorem replay_agrees_image :
    (replayLog (fun _ => (afterWrite 3 true).2) (standbyAt (historyOf 3 true) (fun _ => 0) 0)
      1).Agrees (historyOf 3 true 1) :=
  (replay_agrees_iff (historyOf_run (by decide) true ⟨_, rfl⟩) (fun _ => zero_le _) (zero_le _)).2
    ⟨(by rintro ⟨blk, hblk, haction⟩; cases hblk; cases haction), .inr rfl⟩

/-- One word appended to a page that needs redo: on the primary the page has no next page, after the
replay its next page is block 0. And one word behind a full page, where the new page is restored
from its image: on the primary the last page of the LOV item is block 2, after the replay it is
block 1. -/
theorem replay_differs :
    LoggedRun 1 (historyOf 3 false) (fun _ => oneWord false) (fun _ => (afterWrite 3 false).2) ∧
      (historyOf 3 false 1).pages[1]?.map BMBitmapPage.bitmapNext = some none ∧
      ((replayLog (fun _ => (afterWrite 3 false).2) (standbyAt (historyOf 3 false) (fun _ => 0) 0)
        1).pages 1).map (fun p => p.2.bitmapNext) = some (some 0) ∧
    LoggedRun 1 (historyOf 3968 false) (fun _ => oneWord false)
      (fun _ => (afterWrite 3968 false).2) ∧ (historyOf 3968 false 1).lov.bmLovTail = some 2 ∧
      (replayLog (fun _ => (afterWrite 3968 false).2)
        (standbyAt (historyOf 3968 false) (fun _ => 0) 0) 1).lov.2.bmLovTail = some 1 :=
  ⟨historyOf_run (by decide) false ⟨_, rfl⟩, rfl, rfl, historyOf_run (by decide) false ⟨_, rfl⟩,
    rfl, rfl⟩

end PolemoDB.Bitmap
