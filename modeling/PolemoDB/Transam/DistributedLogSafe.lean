import PolemoDB.Transam.DistributedLogTruncate

/-!
# Truncation of the distributed log is safe, up to a window

`Dlog.Inv` is what every event keeps; `distributedLog_truncation` is what follows.
-/

namespace PolemoDB.Transam

open PolemoDB.Lib TransactionId List Option Nat Dlog Call

namespace Dlog

variable {d : DlogStart} {s s' : Dlog} {t : Call}

/-! ## Invariant -/

/-- An id in use, from those on that `oldestXmin` had not passed at the start. -/
structure InUse (d : DlogStart) (s : Dlog) (x : Nat) : Prop where
  normal : Normal x
  start_le : d.oldestXmin ≤ x
  oldest_le : s.oldestXid ≤ x

/-- The entries of the ids between the two are below the xmin of the call. -/
def Scanned (s : Dlog) (l : Nat) (m : DistributedTransactionId) (old cur : Nat) : Prop :=
  ∀ x, Normal x → old ≤ x → x < cur → x < l ∧ s.entry x < m

/-- What is known of a call. -/
def CallOk (d : DlogStart) (s : Dlog) : Call → Prop
  | .idle | .truncated | .checked _ _ | .checkFailed _ => True
  | .advance l m | .advanceLocked l m => Normal l ∧ s.oldestXid ≤ l ∧ l ≤ s.nextXid ∧
    (l, m) ∈ s.passedIn
  | .scanning l m old cur =>
    (Normal l ∧ s.oldestXid ≤ l ∧ l ≤ s.nextXid ∧ (l, m) ∈ s.passedIn) ∧ InUse d s old ∧
      old ≤ s.oldestXmin ∧ Normal cur ∧ old ≤ cur ∧ cur ≤ s.nextXid ∧
      (∀ c ∈ s.truncations, c ≤ old) ∧ s.Scanned l m old cur
  | .swapping old cur expected =>
    InUse d s old ∧ Normal cur ∧ Normal expected ∧ old ≤ expected ∧ expected ≤ s.oldestXmin ∧
      expected < cur ∧ cur ≤ s.nextXid ∧ ∃ p ∈ s.passedIn, s.Scanned p.1 p.2 old cur
  | .swapped old cur | .released old cur => Normal cur ∧ s.oldestXid ≤ old ∧ s.oldestXid ≤ cur ∧
    cur ≤ s.oldestXmin
  | .truncating cur => Normal cur ∧ s.oldestXid ≤ cur ∧ cur ≤ s.oldestXmin
  | .advanceFailed _ => False
  | .check x => Normal x ∧ s.oldestXid ≤ x ∧ x < s.nextXid
  | .bounded x seen | .checkLocked x seen =>
    InUse d s x ∧ x < s.nextXid ∧ seen ≤ s.truncations.length ∧
      (s.Present x ↔ ∀ c ∈ s.truncationsSince seen,
      deletes c (transactionIdToSegment (xidFromFull x)) = false)

/-- What every event keeps. -/
structure Inv (d : DlogStart) (s : Dlog) : Prop where
  xmin : InUse d s s.oldestXmin
  xmin_le : s.oldestXmin ≤ s.nextXid
  next_normal : Normal s.nextXid
  near : s.nextXid < s.oldestXid + 2 ^ 31
  /-- the latest page is not after the one of the next id, and no page of an id is after it -/
  latest : ∃ page, s.latestPageNumber = page % 2 ^ 20 ∧ page * 4096 ≤ s.nextXid ∧
    (∀ x, Normal x → x < s.nextXid → x / 4096 ≤ page) ∧
    (¬firstOnPage s.nextXid → s.nextXid / 4096 ≤ page)
  present : ∀ x, InUse d s x → x < s.nextXid → (∀ c ∈ s.truncations, c / 131072 ≤ x / 131072) →
    s.Present x
  next_present : ¬firstOnPage s.nextXid → s.Present s.nextXid
  cutoffs : ∀ c ∈ s.truncations, c ≤ s.oldestXmin
  passed : ∀ x, InUse d s x → x < s.oldestXmin → ∃ p ∈ s.passedIn, x < p.1 ∧ s.entry x < p.2
  calls : ∀ t ∈ s.sessions, s.CallOk d t
  locks : LockHeld mode s.sessions

theorem Inv.start (d : DlogStart) : Inv d d.log := by
  have hidle : ∀ t ∈ d.log.sessions, t = .idle := fun t ht => eq_of_mem_replicate ht
  refine ⟨⟨d.normal.1, le_rfl, d.oldest_le⟩, d.xmin_le, d.normal.2, d.near,
    ⟨d.nextXid / 4096, ?_, ?_, fun x _ hx => ?_, fun _ => le_rfl⟩,
    fun x hx hlt _ => d.present x hx.normal hx.start_le hlt, d.next_present, nofun, fun x hx hlt =>
    ?_, fun t ht => ?_, LockHeld.of_free fun t ht => ?_⟩
  · exact transactionIdToPage_full d.nextXid
  · exact div_mul_le_self _ _
  · exact Nat.div_le_div_right hx.le
  · exact absurd hx.start_le (not_le.mpr hlt)
  · rw [hidle t ht]
    exact trivial
  · rw [hidle t ht]
    rfl

/-! ## Ids in use -/

variable {a b x l old cur i c : Nat} {m : DistributedTransactionId} {t t' : Call}

theorem Inv.xid_inj (h : Inv d s) (ha : s.oldestXid ≤ a) (ha' : a ≤ s.nextXid)
    (hb : s.oldestXid ≤ b) (hb' : b ≤ s.nextXid) (heq : xidFromFull a = xidFromFull b) : a = b := by
  have hnear := h.near
  exact xidFromFull_inj heq (by omega) (by omega)

section

variable (h : Inv d s) (hna : Normal a) (hnb : Normal b) (ha : s.oldestXid ≤ a)
  (ha' : a ≤ s.nextXid) (hb : s.oldestXid ≤ b) (hb' : b ≤ s.nextXid)
include h hna hnb ha ha' hb hb'

theorem Inv.precedes_iff : (xidFromFull a).precedes (xidFromFull b) = true ↔ a < b := by
  have hnear := h.near
  exact Transam.precedes_iff hna hnb (by omega) (by omega)

theorem Inv.precedesOrEquals_iff : (xidFromFull a).precedesOrEquals (xidFromFull b) = true ↔
    a ≤ b := by
  have hnear := h.near
  exact Transam.precedesOrEquals_iff hna hnb (by omega) (by omega)

end

section

variable (h : Inv d s) (ha : s.oldestXid ≤ a) (ha' : a ≤ s.nextXid) (hb : s.oldestXid ≤ b)
  (hb' : b ≤ s.nextXid)
include h ha ha' hb hb'

theorem Inv.page_eq
    (heq : transactionIdToPage (xidFromFull a) = transactionIdToPage (xidFromFull b)) :
    a / 4096 = b / 4096 := by
  have hnear := h.near
  rw [transactionIdToPage_full, transactionIdToPage_full] at heq
  omega

theorem Inv.segment_eq
    (heq : transactionIdToSegment (xidFromFull a) = transactionIdToSegment (xidFromFull b)) :
    a / 131072 = b / 131072 := by
  have hnear := h.near
  rw [transactionIdToSegment_full, transactionIdToSegment_full] at heq
  omega

end

theorem firstOnPage_page_lt {y : Nat} (h : firstOnPage y) (hx : Normal x) (hlt : x < y) :
    x / 4096 < y / 4096 := by
  unfold Normal at hx
  rcases h with h | h
  · rw [transactionIdToEntry_full] at h
    omega
  have hmod := congrArg BitVec.toNat h
  rw [toNat_xidFromFull] at hmod
  have hthree : FirstNormalTransactionId.toNat = 3 := rfl
  omega

/-! ## Events that do not truncate -/

/-- What such an event changes: the bounds grow, and what the calls have read stays. -/
structure Frame (d : DlogStart) (s s' : Dlog) : Prop where
  xmin_le : s.oldestXmin ≤ s'.oldestXmin
  next_le : s.nextXid ≤ s'.nextXid
  passedIn : ∀ p ∈ s.passedIn, p ∈ s'.passedIn
  truncations : s'.truncations = s.truncations
  entry : ∀ x, Normal x → s.oldestXid ≤ x → x < s.nextXid → (∃ p ∈ s.passedIn, x < p.1) →
    s'.entry x = s.entry x
  present : ∀ x, InUse d s x → x < s.nextXid → (s'.Present x ↔ s.Present x)

theorem Frame.scanned (hf : Frame d s s') (hold : s.oldestXid ≤ old)
    (hcur : cur ≤ s.nextXid) (hp : (l, m) ∈ s.passedIn) (h : s.Scanned l m old cur) :
    s'.Scanned l m old cur := by
  intro x hx hox hxc
  obtain ⟨hl, hm⟩ := h x hx hox hxc
  rw [hf.entry x hx (hold.trans hox) (lt_of_lt_of_le hxc hcur) ⟨_, hp, hl⟩]
  exact ⟨hl, hm⟩

theorem CallOk.frame (h : s.CallOk d t) (hf : Frame d s s') (hx : ∀ x ∈ t.xids, s'.oldestXid ≤ x) :
    s'.CallOk d t := by
  cases t with
  | idle | truncated | checked x g | checkFailed x => exact trivial
  | advanceFailed x => exact h
  | advance l m | advanceLocked l m =>
    obtain ⟨hn, -, hle, hp⟩ := h
    exact ⟨hn, hx l (.head _), hle.trans hf.next_le, hf.passedIn _ hp⟩
  | scanning l m old cur =>
    obtain ⟨⟨hn, -, hle, hp⟩, hold, hxmin, hcur, hoc, hnext, hcut, hscan⟩ := h
    refine ⟨⟨hn, hx l (.head _), hle.trans hf.next_le, hf.passedIn _ hp⟩,
      ⟨hold.normal, hold.start_le, hx old (.tail _ (.head _))⟩,
      hxmin.trans hf.xmin_le, hcur, hoc, hnext.trans hf.next_le, ?_,
      hf.scanned hold.oldest_le hnext hp hscan⟩
    rw [hf.truncations]
    exact hcut
  | swapping old cur expected =>
    obtain ⟨hold, hcur, hexp, hoe, hxmin, hec, hnext, p, hp, hscan⟩ := h
    exact ⟨⟨hold.normal, hold.start_le, hx old (.head _)⟩, hcur, hexp, hoe, hxmin.trans hf.xmin_le,
      hec, hnext.trans hf.next_le, p, hf.passedIn p hp, hf.scanned hold.oldest_le hnext hp hscan⟩
  | swapped old cur | released old cur =>
    obtain ⟨hcur, -, -, hxmin⟩ := h
    exact ⟨hcur, hx old (.head _), hx cur (.tail _ (.head _)), hxmin.trans hf.xmin_le⟩
  | truncating cur =>
    obtain ⟨hcur, -, hxmin⟩ := h
    exact ⟨hcur, hx cur (.head _), hxmin.trans hf.xmin_le⟩
  | check x =>
    obtain ⟨hn, -, hlt⟩ := h
    exact ⟨hn, hx x (.head _), lt_of_lt_of_le hlt hf.next_le⟩
  | bounded x seen | checkLocked x seen =>
    obtain ⟨huse, hlt, hseen, hiff⟩ := h
    refine ⟨⟨huse.normal, huse.start_le, hx x (.head _)⟩, lt_of_lt_of_le hlt hf.next_le, ?_, ?_⟩
    · rw [hf.truncations]
      exact hseen
    · rw [truncationsSince, hf.truncations]
      exact (hf.present x huse hlt).trans hiff

theorem CallOk.xids_ge (h : s.CallOk d t) : ∀ x ∈ t.xids, s.oldestXid ≤ x := by
  intro x hx
  cases t with
  | idle | truncated | checked x g | checkFailed x | advanceFailed x => exact absurd hx not_mem_nil
  | advance l m | advanceLocked l m => exact mem_singleton.mp hx ▸ h.2.1
  | scanning l m old cur =>
    obtain ⟨⟨-, hl, -⟩, ⟨-, -, hold⟩, -, -, hoc, -⟩ := h
    simp only [xids, mem_cons, not_mem_nil, or_false] at hx
    omega
  | swapping old cur expected =>
    obtain ⟨⟨-, -, hold⟩, -, -, hoe, -, hec, -⟩ := h
    simp only [xids, mem_cons, not_mem_nil, or_false] at hx
    omega
  | swapped old cur | released old cur =>
    obtain ⟨-, hold, hcur, -⟩ := h
    simp only [xids, mem_cons, not_mem_nil, or_false] at hx
    omega
  | truncating cur | check x => exact mem_singleton.mp hx ▸ h.2.1
  | bounded x seen | checkLocked x seen => exact mem_singleton.mp hx ▸ h.1.oldest_le

theorem Inv.frame_passed (h : Inv d s) (hf : Frame d s s') (hold : s.oldestXid ≤ s'.oldestXid)
    (hx : InUse d s' x) (hlt : x < s.oldestXmin) : ∃ p ∈ s'.passedIn, x < p.1 ∧
    s'.entry x < p.2 := by
  have hge : s.oldestXid ≤ x := hold.trans hx.oldest_le
  obtain ⟨p, hp, hxp, hentry⟩ := h.passed x ⟨hx.normal, hx.start_le, hge⟩ hlt
  refine ⟨p, hf.passedIn p hp, hxp, ?_⟩
  rw [hf.entry x hx.normal hge (lt_of_lt_of_le hlt h.xmin_le) ⟨p, hp, hxp⟩]
  exact hentry

theorem Inv.setSession (h : Inv d s) (hi : s.sessions[i]? = some t)
    {passedIn : List (Nat × DistributedTransactionId)} (hsub : ∀ p ∈ s.passedIn, p ∈ passedIn)
    (hok : CallOk d { s with passedIn := passedIn } t')
    (hlock : t'.mode = .free ∨ t'.mode = t.mode ∨
      (t'.mode = .shared ∧ canShare mode s.sessions = true) ∨ canExclude mode s.sessions = true) :
    Inv d { s with sessions := s.sessions.set i t', passedIn := passedIn } := by
  have hf : Frame d s { s with sessions := s.sessions.set i t', passedIn := passedIn } :=
    ⟨le_rfl, le_rfl, hsub, rfl, fun _ _ _ _ _ => rfl, fun _ _ _ => Iff.rfl⟩
  refine { h with
    xmin := { h.xmin with }, present := fun x hx => h.present x { hx with },
    passed := fun x hx hlt => h.frame_passed hf le_rfl hx hlt,
    calls := fun u hu => ?_, locks := h.locks.set hi hlock }
  rcases mem_or_eq_of_mem_set hu with hu | rfl
  · have hu' := h.calls u hu
    exact hu'.frame hf hu'.xids_ge
  · exact hok.frame ⟨le_rfl, le_rfl, fun _ hp => hp, rfl, fun _ _ _ _ _ => rfl,
      fun _ _ _ => Iff.rfl⟩ hok.xids_ge

theorem Inv.goOn (h : Inv d s) (hi : s.sessions[i]? = some t) (hok : s.CallOk d t')
    (hlock : t'.mode = .free ∨ t'.mode = t.mode ∨
      (t'.mode = .shared ∧ canShare mode s.sessions = true) ∨
      canExclude mode s.sessions = true) : Inv d { s with sessions := s.sessions.set i t' } :=
  h.setSession hi (fun _ hp => hp) hok hlock

/-! ## The loop over the entries -/

theorem Inv.scanning_present (h : Inv d s) (hok : s.CallOk d (.scanning l m old cur))
    (hlt : cur < s.nextXid) : s.Present cur := by
  obtain ⟨-, hold, -, hcur, hoc, -, hcut, -⟩ := hok
  exact h.present cur ⟨hcur, hold.start_le.trans hoc, hold.oldest_le.trans hoc⟩ hlt
    fun c hc => Nat.div_le_div_right ((hcut c hc).trans hoc)

theorem Inv.scanned_ok (h : Inv d s) (hok : s.CallOk d (.scanning l m old cur)) :
    s.CallOk d (.scanned old cur) := by
  obtain ⟨⟨-, -, -, hp⟩, hold, hxmin, hcur, hoc, hnext, -, hscan⟩ := hok
  unfold scanned
  split
  next heq =>
    obtain rfl := h.xid_inj hold.oldest_le (hoc.trans hnext) (hold.oldest_le.trans hoc) hnext heq
    exact ⟨hcur, hold.oldest_le, hold.oldest_le, hxmin⟩
  next hne =>
    have hlt : old < cur := lt_of_le_of_ne hoc fun heq => hne (congrArg xidFromFull heq)
    exact ⟨hold, hcur, hold.normal, le_rfl, hxmin, hlt, hnext, (l, m), hp, hscan⟩

theorem Call.scanned_mode (old cur : Nat) : (scanned old cur).mode = .shared := by
  unfold scanned
  split <;> rfl

theorem Inv.scan_ok (h : Inv d s)
    (hok : s.CallOk d (.scanning l m old cur))
    (hrun : s.runSession (.scanning l m old cur) = some (s', t)) :
    s' = s ∧ s.CallOk d t ∧ t.mode = .shared := by
  have hscanned := h.scanned_ok hok
  have hcall := hok
  obtain ⟨⟨hn, hl, hln, hp⟩, hold, hxmin, hcur, hoc, hnext, hcut, hscan⟩ := hok
  obtain ⟨rfl, rfl⟩ := hrun
  refine ⟨rfl, ?_⟩
  have hiff := h.precedes_iff hcur hn (hold.oldest_le.trans hoc) hnext hl hln
  split
  next hprec =>
    have hcl : cur < l := hiff.mp hprec
    rw [if_neg (not_not_intro (h.scanning_present hcall (hcl.trans_le hln)))]
    split
    · exact ⟨hscanned, Call.scanned_mode old cur⟩
    next hlow =>
      refine ⟨⟨⟨hn, hl, hln, hp⟩, hold, hxmin, normal_fullAdvance cur,
        hoc.trans (lt_fullAdvance cur).le, (fullAdvance_le hn hcl).trans hln, hcut,
        fun x hx hox hxc => ?_⟩, rfl⟩
      rcases lt_or_eq_of_le ((lt_fullAdvance_iff hx).mp hxc) with hlt | rfl
      · exact hscan x hx hox hlt
      · exact ⟨hcl, BitVec.not_le.mp hlow⟩
  · exact ⟨hscanned, Call.scanned_mode old cur⟩

/-! ## The compare and exchange -/

theorem Inv.exchange (h : Inv d s) {expected : Nat}
    (hi : s.sessions[i]? = some (.swapping old cur expected))
    (heq : xidFromFull s.oldestXmin = xidFromFull expected) :
    s.oldestXmin ≤ cur ∧ Inv d { s with
      oldestXmin := cur, sessions := s.sessions.set i (.swapped old cur) } := by
  obtain ⟨hold, hcur, hexp, hoe, hxmin, hec, hnext, p, hp, hscan⟩ := h.calls _ (mem_of_getElem? hi)
  have hge : s.oldestXid ≤ expected := hold.oldest_le.trans hoe
  obtain rfl : s.oldestXmin = expected :=
    h.xid_inj h.xmin.oldest_le h.xmin_le hge (hxmin.trans h.xmin_le) heq
  have hf : Frame d s { s with
    oldestXmin := cur, sessions := s.sessions.set i (.swapped old cur) } :=
    ⟨hec.le, le_rfl, fun _ hp => hp, rfl, fun _ _ _ _ _ => rfl, fun _ _ _ => Iff.rfl⟩
  refine ⟨hec.le, ⟨hcur, h.xmin.start_le.trans hec.le, h.xmin.oldest_le.trans hec.le⟩, hnext,
    h.next_normal, h.near, h.latest, fun x hx => h.present x { hx with }, h.next_present,
    fun c hc => (h.cutoffs c hc).trans hec.le, fun x hx hlt => ?_, fun u hu =>
    ?_, h.locks.set hi (.inr (.inl rfl))⟩
  · rcases lt_or_ge x s.oldestXmin with hx' | hx'
    · exact h.frame_passed hf le_rfl hx hx'
    · -- passed by this call
      exact ⟨p, hp, hscan x hx.normal (hoe.trans hx') hlt⟩
  · rcases mem_or_eq_of_mem_set hu with hu | rfl
    · have hu' := h.calls u hu
      exact hu'.frame hf hu'.xids_ge
    · exact ⟨hcur, hold.oldest_le, h.xmin.oldest_le.trans hec.le, le_rfl⟩

theorem Inv.exchange_failed (h : Inv d s) {expected : Nat}
    (hok : s.CallOk d (.swapping old cur expected)) :
    ((xidFromFull cur).precedesOrEquals (xidFromFull s.oldestXmin) = true →
      s.CallOk d (.swapped old s.oldestXmin)) ∧
      (¬(xidFromFull cur).precedesOrEquals (xidFromFull s.oldestXmin) = true →
      s.CallOk d (.swapping old cur s.oldestXmin)) := by
  obtain ⟨hold, hcur, -, hoe, hxmin, hec, hnext, p, hp, hscan⟩ := hok
  refine ⟨fun _ => ⟨h.xmin.normal, hold.oldest_le, h.xmin.oldest_le, le_rfl⟩, fun hno => ?_⟩
  rw [h.precedesOrEquals_iff hcur h.xmin.normal (hold.oldest_le.trans (hoe.trans hec.le)) hnext
    h.xmin.oldest_le h.xmin_le] at hno
  exact ⟨hold, hcur, h.xmin.normal, hoe.trans hxmin, le_rfl, Nat.lt_of_not_le hno, hnext, p, hp,
    hscan⟩

/-! ## Truncation -/

theorem Inv.deletes_eq_false (h : Inv d s) (hc : s.oldestXid ≤ c)
    (hx : Normal x ∧ x < s.nextXid ∨ x = s.nextXid ∧ ¬firstOnPage s.nextXid)
    (hseg : c / 131072 ≤ x / 131072)
    (hlatest : pagePrecedes s.latestPageNumber (transactionIdToPage (xidFromFull c)) = false) :
    deletes c (transactionIdToSegment (xidFromFull x)) = false := by
  obtain ⟨page, hpage, hle, hall, hnext⟩ := h.latest
  have hnear := h.near
  have hxp : x / 4096 ≤ page := by
    rcases hx with ⟨hn, hlt⟩ | ⟨rfl, hfirst⟩
    · exact hall x hn hlt
    · exact hnext hfirst
  rw [hpage] at hlatest
  exact slruMayDeleteSegment_eq_false hseg hxp (by omega) hlatest

/-- The log after a truncation that is not refused. -/
def removed (s : Dlog) (c : Nat) : Dlog :=
  { s with
    segments := s.segments.filter fun seg => !deletes c seg, truncations := c :: s.truncations }

theorem truncate_cases (s : Dlog) (c : Nat) : s.truncate c = s ∨
    (pagePrecedes s.latestPageNumber (transactionIdToPage (xidFromFull c)) = false ∧
    s.truncate c = s.removed c) := by
  unfold truncate
  split
  · split
    · exact .inl rfl
    next hno => exact .inr ⟨Bool.eq_false_iff.mpr hno, rfl⟩
  · exact .inl rfl

theorem present_removed :
    (s.removed c).Present x ↔ s.Present x ∧
    deletes c (transactionIdToSegment (xidFromFull x)) = false := by
  unfold Present removed
  rw [mem_filter, Bool.not_eq_true']

theorem CallOk.truncate (h : s.CallOk d t) (hfree : t.mode = .free) : (s.removed c).CallOk d t := by
  cases t with
  | idle | checkFailed x => exact trivial
  | advanceFailed x | advance l m | released old cur | check x => exact h
  | bounded x seen =>
    obtain ⟨huse, hlt, hseen, hiff⟩ := h
    refine ⟨{ huse with }, hlt, le_succ_of_le hseen, ?_⟩
    have hsince : (s.removed c).truncationsSince seen = c :: s.truncationsSince seen := by
      unfold truncationsSince removed
      rw [length_cons, succ_sub hseen, take_succ_cons]
    rw [present_removed, hsince, forall_mem_cons, hiff, and_comm]
  | advanceLocked l m | scanning l m old cur | swapping old cur expected | swapped old cur
    | truncating c | truncated | checked x g
    | checkLocked x seen => cases hfree

theorem Inv.truncate (h : Inv d s) (hi : s.sessions[i]? = some (.truncating c)) :
    (s.truncate c).oldestXmin = s.oldestXmin ∧
    Inv d { s.truncate c with sessions := (s.truncate c).sessions.set i .truncated } := by
  obtain ⟨hcn, hcge, hcle⟩ := h.calls _ (mem_of_getElem? hi)
  rcases s.truncate_cases c with heq | ⟨hlatest, heq⟩
  · rw [heq]
    exact ⟨rfl, h.goOn hi trivial (.inr (.inl rfl))⟩
  rw [heq]
  refine ⟨rfl, { h.xmin with }, h.xmin_le, h.next_normal, h.near, h.latest, fun x hx hlt hcut => ?_,
    fun hfirst => ?_, fun c' hc' => ?_, fun x hx hlt => h.passed x { hx with } hlt, fun u hu => ?_,
    h.locks.set hi (.inr (.inl rfl))⟩
  · obtain ⟨hseg, hold⟩ := forall_mem_cons.mp hcut
    exact present_removed.mpr ⟨h.present x { hx with } hlt hold,
      h.deletes_eq_false hcge (.inl ⟨hx.normal, hlt⟩) hseg hlatest⟩
  · exact present_removed.mpr ⟨h.next_present hfirst,
      h.deletes_eq_false hcge (.inr ⟨rfl, hfirst⟩) (Nat.div_le_div_right (hcle.trans h.xmin_le))
      hlatest⟩
  · rcases mem_cons.mp hc' with rfl | hc'
    · exact hcle
    · exact h.cutoffs c' hc'
  · obtain ⟨j, hj⟩ := mem_iff_getElem?.mp hu
    rcases getElem?_set_cases hj with ⟨-, rfl⟩ | ⟨hij, hj⟩
    · exact trivial
    have hfree := h.locks i j _ _ hi hj (Ne.symm hij) rfl
    have hok : (s.removed c).CallOk d u := (h.calls u (mem_of_getElem? hj)).truncate hfree
    exact hok.frame ⟨le_rfl, le_rfl, fun _ hp => hp, rfl, fun _ _ _ _ _ => rfl,
      fun _ _ _ => Iff.rfl⟩ hok.xids_ge

/-! ## A session goes on -/

theorem truncationsSince_length (s : Dlog) : s.truncationsSince s.truncations.length = [] := by
  rw [truncationsSince, Nat.sub_self, take_zero]

/-- The lookup reads `oldestXmin`: an id that it has not passed is on a page that is there. -/
theorem Inv.bounded_ok (h : Inv d s) (hok : s.CallOk d (.check x))
    (hno : ¬(xidFromFull x).precedes (xidFromFull s.oldestXmin) = true) :
    s.CallOk d (.bounded x s.truncations.length) := by
  obtain ⟨hn, hge, hlt⟩ := hok
  rw [h.precedes_iff hn h.xmin.normal hge hlt.le h.xmin.oldest_le h.xmin_le] at hno
  have hle : s.oldestXmin ≤ x := Nat.le_of_not_lt hno
  have huse : InUse d s x := ⟨hn, h.xmin.start_le.trans hle, hge⟩
  have hpresent : s.Present x := h.present x huse hlt fun c hc =>
    Nat.div_le_div_right ((h.cutoffs c hc).trans hle)
  rw [CallOk, truncationsSince_length]
  exact ⟨huse, hlt, le_rfl, fun _ => forall_mem_nil _, fun _ => hpresent⟩

theorem Inv.run (h : Inv d s) (hstep : s.step (.run i) = some s') : Inv d s' ∧
    s.oldestXmin ≤ s'.oldestXmin := by
  rw [step, map_eq_some_iff] at hstep
  obtain ⟨⟨s₁, t'⟩, hrun, rfl⟩ := hstep
  rw [bind_eq_some_iff] at hrun
  obtain ⟨t, hi, hrun⟩ := hrun
  have hok := h.calls t (mem_of_getElem? hi)
  cases t with
  | idle | advanceFailed x | checkFailed x => cases hrun
  | advance l m | bounded x seen =>
    rw [runSession] at hrun
    split at hrun <;> cases hrun
    next hcan => exact ⟨h.goOn hi hok (.inr (.inr (.inl ⟨rfl, hcan⟩))), le_rfl⟩
  | advanceLocked l m =>
    cases hrun
    refine ⟨h.goOn hi ⟨hok, h.xmin, le_rfl, h.xmin.normal, le_rfl, h.xmin_le, h.cutoffs,
      fun x _ hx hlt => ?_⟩ (.inr (.inl rfl)), le_rfl⟩
    exact absurd hx (not_le.mpr hlt)
  | scanning l m old cur =>
    obtain ⟨rfl, hok', hmode⟩ := h.scan_ok hok hrun
    exact ⟨h.goOn hi hok' (.inr (.inl hmode)), le_rfl⟩
  | swapping old cur expected =>
    obtain ⟨hdone, hretry⟩ := h.exchange_failed hok
    rw [runSession] at hrun
    split at hrun
    next heq =>
      cases hrun
      obtain ⟨hle, hinv⟩ := h.exchange hi heq
      exact ⟨hinv, hle⟩
    · split at hrun
      next hle =>
        cases hrun
        exact ⟨h.goOn hi (hdone hle) (.inr (.inl rfl)), le_rfl⟩
      next hle =>
        cases hrun
        exact ⟨h.goOn hi (hretry hle) (.inr (.inl rfl)), le_rfl⟩
  | swapped old cur =>
    cases hrun
    exact ⟨h.goOn hi hok (.inl rfl), le_rfl⟩
  | released old cur =>
    rw [runSession] at hrun
    split at hrun
    · split at hrun
      next hcan =>
        cases hrun
        obtain ⟨hcur, -, hge, hle⟩ := hok
        exact ⟨h.goOn hi ⟨hcur, hge, hle⟩ (.inr (.inr (.inr hcan))), le_rfl⟩
      · cases hrun
    · cases hrun
      exact ⟨h.goOn hi trivial (.inl rfl), le_rfl⟩
  | truncating c =>
    cases hrun
    obtain ⟨heq, hinv⟩ := h.truncate hi
    exact ⟨hinv, heq.ge⟩
  | truncated | checked x g =>
    cases hrun
    exact ⟨h.goOn hi trivial (.inl rfl), le_rfl⟩
  | check x =>
    rw [runSession] at hrun
    split at hrun <;> cases hrun
    · refine ⟨h.goOn hi ?_ (.inl ?_), le_rfl⟩
      · split
        · exact trivial
        next hno => exact h.bounded_ok hok hno
      · split <;> rfl
  | checkLocked x seen =>
    cases hrun
    refine ⟨h.goOn hi ?_ ?_, le_rfl⟩
    · split <;> exact trivial
    · split
      · exact .inl rfl
      · exact .inr (.inl rfl)

/-! ## The other events -/

theorem fullAdvance_page (h : ¬firstOnPage (fullAdvance x)) : fullAdvance x / 4096 = x / 4096 := by
  obtain ⟨hentry, hfirst⟩ := not_or.mp h
  rw [transactionIdToEntry_full] at hentry
  have hne : fullAdvance x % 2 ^ 32 ≠ 3 := by
    intro hmod
    apply hfirst
    apply BitVec.eq_of_toNat_eq
    exact hmod
  by_cases hskip : (x + 1) % 2 ^ 32 < 3
  · rw [fullAdvance, if_pos hskip] at hne
    omega
  · rw [fullAdvance, if_neg hskip] at hentry ⊢
    omega

/-- What `DistributedLog_Extend` does not touch, and what is there after it. -/
theorem Inv.extend (h : Inv d s) :
    (∀ x, Normal x → s.oldestXid ≤ x → x < s.nextXid → (s.extend s.nextXid).entry x = s.entry x) ∧
      (∀ x, InUse d s x → x < s.nextXid → ((s.extend s.nextXid).Present x ↔ s.Present x)) ∧
      (s.extend s.nextXid).Present s.nextXid ∧
      (∃ page, (s.extend s.nextXid).latestPageNumber = page % 2 ^ 20 ∧ page * 4096 ≤ s.nextXid ∧
        ∀ x, Normal x → x ≤ s.nextXid → x / 4096 ≤ page) := by
  have hge : s.oldestXid ≤ s.nextXid := h.xmin.oldest_le.trans h.xmin_le
  unfold Dlog.extend
  by_cases hfirst : firstOnPage s.nextXid
  · rw [if_pos hfirst]
    refine ⟨fun x hx hox hlt => ?_, fun x hx hlt => ?_, mem_cons_self, s.nextXid / 4096,
      transactionIdToPage_full _, Nat.div_mul_le_self _ _, fun x _ hx => Nat.div_le_div_right hx⟩
    · refine if_neg fun heq => ?_
      have hpage := h.page_eq hox hlt.le hge le_rfl heq
      exact (firstOnPage_page_lt hfirst hx hlt).ne hpage
    refine ⟨fun hin => ?_, fun hin => mem_cons_of_mem _ hin⟩
    rcases mem_cons.mp hin with heq | hin
    · -- the segment of the next id has not been truncated
      have hseg := h.segment_eq hx.oldest_le hlt.le hge le_rfl heq
      refine h.present x hx hlt fun c hc => ?_
      rw [hseg]
      exact Nat.div_le_div_right ((h.cutoffs c hc).trans h.xmin_le)
    · exact hin
  · rw [if_neg hfirst]
    obtain ⟨page, hpage, hle, hall, hnext⟩ := h.latest
    refine ⟨fun _ _ _ _ => rfl, fun _ _ _ => Iff.rfl, h.next_present hfirst, page, hpage, hle,
      fun x hx hxn => ?_⟩
    rcases lt_or_eq_of_le hxn with hlt | rfl
    · exact hall x hx hlt
    · exact hnext hfirst

theorem extend_same (s : Dlog) (x : Nat) : ∃ segments latestPageNumber distribXid,
    s.extend x = { s with segments, latestPageNumber, distribXid } := by
  unfold extend
  split <;> exact ⟨_, _, _, rfl⟩

theorem Inv.assign (h : Inv d s) (hstep : s.step .assign = some s') : Inv d s' ∧
    s.oldestXmin ≤ s'.oldestXmin := by
  rw [step] at hstep
  split at hstep <;> cases hstep
  next hnear =>
    obtain ⟨hentry, hpresent, hnext, page, hpage, hle, hall⟩ := h.extend
    obtain ⟨segments, latestPageNumber, distribXid, heq⟩ := s.extend_same s.nextXid
    rw [heq] at hentry hpresent hnext hpage ⊢
    have hadv := lt_fullAdvance s.nextXid
    have hf : Frame d s { s with
        segments, latestPageNumber, distribXid, nextXid := fullAdvance s.nextXid } :=
      ⟨le_rfl, hadv.le, fun _ hp => hp, rfl, fun x hx hox hlt _ => hentry x hx hox hlt, hpresent⟩
    refine ⟨{ h with
      xmin := { h.xmin with }
      xmin_le := h.xmin_le.trans hadv.le
      next_normal := normal_fullAdvance _
      near := hnear
      latest := ⟨page, hpage, hle.trans hadv.le,
        fun x hx hlt => hall x hx ((lt_fullAdvance_iff hx).mp hlt), fun hfirst => ?_⟩
      present := fun x hx hlt hcut => ?_
      next_present := fun hfirst => ?_
      passed := fun x hx hlt => h.frame_passed hf le_rfl hx hlt
      calls := fun t ht => (h.calls t ht).frame hf (h.calls t ht).xids_ge }, le_rfl⟩
    · exact (fullAdvance_page hfirst).le.trans (hall _ h.next_normal le_rfl)
    · rcases lt_or_eq_of_le ((lt_fullAdvance_iff hx.normal).mp hlt) with hlt | rfl
      · exact (hpresent x { hx with } hlt).mpr (h.present x { hx with } hlt hcut)
      · exact hnext
    have hsame : transactionIdToSegment (xidFromFull (fullAdvance s.nextXid)) =
        transactionIdToSegment (xidFromFull s.nextXid) := by
      have hpg := fullAdvance_page hfirst
      rw [transactionIdToSegment_full, transactionIdToSegment_full]
      omega
    show transactionIdToSegment (xidFromFull (fullAdvance s.nextXid)) ∈ segments
    rw [hsame]
    exact hnext

theorem Inv.freeze (h : Inv d s) (hle : s.oldestXid ≤ b) (hb : b ≤ s.oldestXmin)
    (hxids : ∀ t ∈ s.sessions, ∀ x ∈ t.xids, b ≤ x) : Inv d { s with oldestXid := b } := by
  have hf : Frame d s { s with oldestXid := b } :=
    ⟨le_rfl, le_rfl, fun _ hp => hp, rfl, fun _ _ _ _ _ => rfl, fun _ _ _ => Iff.rfl⟩
  have huse : ∀ {x}, InUse d { s with oldestXid := b } x → InUse d s x := fun hx =>
    ⟨hx.normal, hx.start_le, hle.trans hx.oldest_le⟩
  exact { h with
    xmin := ⟨h.xmin.normal, h.xmin.start_le, hb⟩
    near := h.near.trans_le (Nat.add_le_add_right hle _)
    present := fun x hx => h.present x (huse hx)
    passed := fun x hx hlt => h.frame_passed hf hle hx hlt
    calls := fun t ht => (h.calls t ht).frame hf (hxids t ht) }

theorem Inv.setCommitted (h : Inv d s) {g : DistributedTransactionId} {log : DistributedLog}
    (hge : s.oldestXid ≤ x) (hlt : x < s.nextXid) (hlate : ∀ p ∈ s.passedIn, p.1 ≤ x)
    (hset : s.log.setCommitted (xidFromFull x) g = .ok log) :
    Inv d { s with distribXid := log.distribXid } := by
  have hf : Frame d s { s with distribXid := log.distribXid } := by
    refine ⟨le_rfl, le_rfl, fun _ hp => hp, rfl, fun y _ hoy hyn ⟨p, hp, hyp⟩ => ?_,
      fun _ _ _ => Iff.rfl⟩
    refine DistributedLog.setCommitted_distribXid hset fun heq => ?_
    obtain rfl := h.xid_inj hoy hyn.le hge hlt.le heq
    exact absurd (hlate p hp) (not_le.mpr hyp)
  exact { h with
    xmin := { h.xmin with }
    present := fun x hx => h.present x { hx with }
    passed := fun x hx hlt => h.frame_passed hf le_rfl hx hlt
    calls := fun t ht => (h.calls t ht).frame hf (h.calls t ht).xids_ge }

/-- **One event** keeps the invariant, and `oldestXmin` does not move backwards. -/
theorem Inv.step (h : Inv d s) {e : DlogEvent} (hstep : s.step e = some s') : Inv d s' ∧
    s.oldestXmin ≤ s'.oldestXmin := by
  cases e <;> rw [Dlog.step] at hstep
  case advanceOldestXmin i l m =>
    split at hstep <;> cases hstep
    next hg =>
      obtain ⟨hi, hn, hge, hle⟩ := hg
      exact ⟨h.setSession hi (fun p hp => mem_cons_of_mem _ hp) ⟨hn, hge, hle, mem_cons_self⟩
        (.inl rfl), le_rfl⟩
  case committedCheck i x =>
    split at hstep <;> cases hstep
    next hg =>
      obtain ⟨hi, hok⟩ := hg
      exact ⟨h.goOn hi hok (.inl rfl), le_rfl⟩
  case run i => exact h.run hstep
  case assign => exact h.assign hstep
  case freeze b =>
    split at hstep <;> cases hstep
    next hg =>
      obtain ⟨hle, hb, hxids⟩ := hg
      exact ⟨h.freeze hle hb hxids, le_rfl⟩
  case setCommitted x g =>
    split at hstep
    next hg =>
      obtain ⟨-, hge, hlt, hlate⟩ := hg
      split at hstep <;> cases hstep
      next log hset => exact ⟨h.setCommitted hge hlt hlate hset, le_rfl⟩
    · cases hstep

/-! ## A lookup that is not disturbed -/

theorem run_eq {s₁ : Dlog} (hi : s.sessions[i]? = some t) (hrun : s.runSession t = some (s₁, t')) :
    s.step (.run i) = some { s₁ with sessions := s₁.sessions.set i t' } := by
  rw [step, hi, bind_some, hrun, map_some]

/-- The log with one session somewhere else in its call. -/
def setCall (s : Dlog) (i : Nat) (t : Call) : Dlog := { s with sessions := s.sessions.set i t }

theorem run_setCall (hlen : i < s.sessions.length)
    (hrun : (s.setCall i t).runSession t = some (s.setCall i t, t')) :
    (s.setCall i t).step (.run i) = some (s.setCall i t') := by
  rw [run_eq (getElem?_set_self hlen) hrun, setCall, setCall, set_set]

/-- **A lookup with nothing in between**: in every state that a run reaches,
`DistributedLog_CommittedCheck` finds the page of an id in use and answers as the log without pages
does. -/
theorem committedCheck_undisturbed {events : List DlogEvent}
    (hrun : runSteps Dlog.step events d.log = some s)
    (hi : s.sessions[i]? = some .idle) (hn : Normal x) (hge : s.oldestXid ≤ x) (hlt : x < s.nextXid)
    (hcan : canShare mode s.sessions = true) :
    ∃ s', (runSteps Dlog.step [.committedCheck i x, .run i] s = some s' ∧
        s'.sessions[i]? = some .idle ∧ s.log.committedCheck (xidFromFull x) = .ok none) ∨
      (runSteps Dlog.step [.committedCheck i x, .run i, .run i, .run i] s = some s' ∧
        s'.sessions[i]? = some (.checked x (s.entry x)) ∧
        s.log.committedCheck (xidFromFull x) =
        .ok (if s.entry x ≠ 0 then some (s.entry x) else none)) := by
  have h : Inv d s := runSteps_invariant (fun h hstep => (h.step hstep).1) events (.start d) hrun
  have hlen : i < s.sessions.length := (List.getElem?_eq_some_iff.mp hi).1
  have hvalid : xidFromFull s.oldestXmin ≠ InvalidTransactionId := by
    intro heq
    have hmod := congrArg BitVec.toNat heq
    have hnormal := h.xmin.normal
    rw [toNat_xidFromFull] at hmod
    unfold Normal at hnormal
    rw [hmod] at hnormal
    exact absurd hnormal (by decide)
  have hcall : s.step (.committedCheck i x) = some (s.setCall i (.check x)) :=
    if_pos ⟨hi, hn, hge, hlt⟩
  have hbound : (s.setCall i (.check x)).step (.run i) =
      some (s.setCall i (if (xidFromFull x).precedes (xidFromFull s.oldestXmin) then .idle
      else .bounded x s.truncations.length)) :=
    run_setCall hlen (if_neg hvalid)
  by_cases hp : (xidFromFull x).precedes (xidFromFull s.oldestXmin) = true
  · rw [if_pos hp] at hbound
    refine ⟨s.setCall i .idle, .inl ⟨?_, getElem?_set_self hlen, ?_⟩⟩
    · rw [runSteps, hcall, bind_some, runSteps, hbound, bind_some, runSteps]
    · exact (if_neg hvalid).trans (if_pos hp)
  rw [if_neg hp] at hbound
  obtain ⟨-, -, -, hiff⟩ := h.bounded_ok ⟨hn, hge, hlt⟩ hp
  rw [truncationsSince_length] at hiff
  have hpresent : s.Present x := hiff.mpr (forall_mem_nil _)
  have hmode : (bounded x s.truncations.length).mode ≠ .exclusive := fun hc =>
    LockMode.noConfusion hc
  have hlock : (s.setCall i (.bounded x s.truncations.length)).step (.run i) =
      some (s.setCall i (.checkLocked x s.truncations.length)) :=
      run_setCall hlen (if_pos (canShare_set hcan hmode i))
  have hread : (s.setCall i (.checkLocked x s.truncations.length)).step (.run i) =
      some (s.setCall i (.checked x (s.entry x))) := by
    refine run_setCall hlen ?_
    show some (_, if ¬s.Present x then checkFailed x else checked x (s.entry x)) = _
    rw [if_neg (not_not_intro hpresent)]
  refine ⟨s.setCall i (.checked x (s.entry x)), .inr ⟨?_, getElem?_set_self hlen, ?_⟩⟩
  · rw [runSteps, hcall, bind_some, runSteps, hbound, bind_some, runSteps, hlock, bind_some,
      runSteps, hread, bind_some, runSteps]
  · refine (if_neg hvalid).trans ((if_neg hp).trans ?_)
    show (if s.entry x ≠ 0 then Except.ok (some (s.entry x)) else Except.ok none) = _
    split <;> rfl

end Dlog

/-- **Truncation of the distributed log.** `oldestXmin` never moves backwards; every id in use that
it has passed has no gxid or one below an `xminAllDistributedSnapshots` that was passed in; the loop
over the entries never meets a page that was removed; and `DistributedLog_CommittedCheck` does just
if, between its reading of `oldestXmin` and its taking of the lock, a truncation deleted the segment
of the id. -/
theorem distributedLog_truncation (d : DlogStart) (events : List DlogEvent) (s : Dlog)
    (hrun : runSteps step events d.log = some s) :
    (∀ events' s', runSteps step events' s = some s' → s.oldestXmin ≤ s'.oldestXmin) ∧
    (∀ x, Normal x → d.oldestXmin ≤ x → s.oldestXid ≤ x → x < s.oldestXmin →
      ∃ p ∈ s.passedIn, s.entry x = 0 ∨ s.entry x < p.2) ∧
    (∀ x, .advanceFailed x ∉ s.sessions) ∧
    (∀ i x seen s', s.sessions[i]? = some (.checkLocked x seen) → s.step (.run i) = some s' →
      (s'.sessions[i]? = some (.checkFailed x) ↔
        ∃ c ∈ s.truncationsSince seen, deletes c (transactionIdToSegment (xidFromFull x)) =
        true)) := by
  have h : Inv d s := runSteps_invariant (fun h hstep => (h.step hstep).1) events (.start d) hrun
  refine ⟨fun events' s' hrun' => ?_, fun x hn hs hge hlt => ?_, fun x hx => h.calls _ hx,
    fun i x seen s' hi hstep => ?_⟩
  · have hstep : ∀ {t t' : Dlog} {e : DlogEvent}, Inv d t ∧ s.oldestXmin ≤ t.oldestXmin →
        t.step e = some t' → Inv d t' ∧ s.oldestXmin ≤ t'.oldestXmin := by
      rintro t t' e ⟨ht, hle⟩ he
      obtain ⟨ht', hle'⟩ := ht.step he
      exact ⟨ht', hle.trans hle'⟩
    exact (runSteps_invariant hstep events' ⟨h, le_rfl⟩ hrun').2
  · obtain ⟨p, hp, -, hentry⟩ := h.passed x ⟨hn, hs, hge⟩ hlt
    exact ⟨p, hp, .inr hentry⟩
  · obtain ⟨-, -, -, hiff⟩ := h.calls _ (mem_of_getElem? hi)
    have hlen : i < s.sessions.length := (List.getElem?_eq_some_iff.mp hi).1
    rw [run_eq hi rfl] at hstep
    cases hstep
    rw [getElem?_set_self hlen, some.injEq]
    by_cases hpresent : s.Present x
    · rw [if_neg (not_not_intro hpresent)]
      refine ⟨nofun, fun ⟨c, hc, hdel⟩ => ?_⟩
      rw [hiff.mp hpresent c hc] at hdel
      cases hdel
    rw [if_pos hpresent]
    refine ⟨fun _ => ?_, fun _ => rfl⟩
    rw [hiff] at hpresent
    push Not at hpresent
    obtain ⟨c, hc, hdel⟩ := hpresent
    exact ⟨c, hc, Bool.eq_true_of_not_eq_false hdel⟩

/-- The last ids of the first segment are in use, and the first ones of the second. -/
def segmentEnd : DlogStart where
  oldestXid := 131070
  oldestXmin := 131070
  nextXid := 131080
  distribXid := fun _ => 0
  segments := [0, 1]
  numSessions := 2
  normal := ⟨by decide, by decide⟩
  oldest_le := le_rfl
  xmin_le := by decide
  near := by decide
  present := fun x _ hge hlt => by
    rw [transactionIdToSegment_full]
    have hcases : x / 131072 % 2 ^ 15 = 0 ∨ x / 131072 % 2 ^ 15 = 1 := by omega
    rcases hcases with h | h
    · rw [h]
      exact List.mem_cons_self
    · rw [h]
      exact List.mem_cons_of_mem _ List.mem_cons_self
  next_present := fun _ => by decide

/-- The second session advances `oldestXmin` to the second segment and truncates the log. -/
def truncatingRun : List DlogEvent := .advanceOldestXmin 1 131075 1 :: replicate 13 (.run 1)

/-- After a commit and a truncation the lookup of the id 131076 gives its gxid. -/
theorem committedCheck_undisturbed_end :
    ∃ s s', runSteps step (.setCommitted 131076 5 :: truncatingRun) segmentEnd.log = some s ∧
      s.truncations = [131075] ∧
      runSteps step [.committedCheck 0 131076, .run 0, .run 0, .run 0] s = some s' ∧
      s'.sessions[0]? = some (.checked 131076 5) ∧
      s.log.committedCheck (xidFromFull 131076) = .ok (some 5) := by
  obtain ⟨s, hrun, hidle, hge, hlt, hcan, hcut, hentry, hheld⟩ :
      ∃ s, runSteps step (.setCommitted 131076 5 :: truncatingRun) segmentEnd.log = some s ∧
      s.sessions[0]? = some .idle ∧ s.oldestXid ≤ 131076 ∧ 131076 < s.nextXid ∧
      canShare mode s.sessions = true ∧ s.truncations = [131075] ∧ s.entry 131076 = 5 ∧
      (s.log.committedCheck (xidFromFull 131076)).toOption = some (some 5) :=
    runSteps_exists (by decide +kernel)
  obtain ⟨s', ⟨-, -, hnone⟩ | ⟨hrun', hchecked, hanswer⟩⟩ :=
    Dlog.committedCheck_undisturbed hrun hidle (by decide) hge hlt hcan
  · rw [hnone] at hheld
    cases hheld
  · rw [hentry] at hchecked hanswer
    exact ⟨s, s', hrun, hcut, hrun', hchecked, hanswer⟩

/-- The log is truncated after the lookup has read `oldestXmin`, but the segment of the id is not
deleted: it reads its page. -/
theorem distributedLog_truncation_run :
    ∃ s s', runSteps step ([.committedCheck 0 131076, .run 0] ++ truncatingRun ++ [.run 0])
        segmentEnd.log = some s ∧ s.truncations = [131075] ∧ 131070 < s.oldestXmin ∧
      s.sessions[0]? = some (.checkLocked 131076 0) ∧ s.step (.run 0) = some s' ∧
      s'.sessions[0]? ≠ some (.checkFailed 131076) := by
  obtain ⟨s, hrun, hcut, hxmin, hsess⟩ : ∃ s,
      runSteps step ([.committedCheck 0 131076, .run 0] ++ truncatingRun ++ [.run 0])
        segmentEnd.log = some s ∧ s.truncations = [131075] ∧ 131070 < s.oldestXmin ∧
      s.sessions[0]? = some (.checkLocked 131076 0) := runSteps_exists (by decide +kernel)
  have hstep := run_eq hsess rfl
  refine ⟨s, _, hrun, hcut, hxmin, hsess, hstep, fun hfail => ?_⟩
  obtain ⟨c, hc, hdel⟩ := ((distributedLog_truncation segmentEnd _ s hrun).2.2.2 0 131076 0 _ hsess
    hstep).mp hfail
  rw [truncationsSince, hcut] at hc
  rw [mem_singleton.mp hc] at hdel
  exact absurd hdel (by decide)

/-- The first session has read `oldestXmin` when the second one advances it to the next segment and
truncates the log: the lookup of the id 131071 finds that its page was removed. -/
theorem committedCheck_reads_removed_page : ∃ s, runSteps step
        [.committedCheck 0 131071, .run 0, .advanceOldestXmin 1 131075 1, .run 1, .run 1, .run 1,
          .run 1, .run 1, .run 1, .run 1, .run 1, .run 1, .run 1, .run 1, .run 1, .run 1, .run 0,
          .run 0] segmentEnd.log = some s ∧
      s.sessions[0]? = some (.checkFailed 131071) ∧ 1 ∈ s.segments ∧ 0 ∉ s.segments :=
  runSteps_exists (by decide +kernel)

end PolemoDB.Transam
