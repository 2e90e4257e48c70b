import PolemoDB.Misc.FstreamRead
import Mathlib.Data.List.Induction

/-!
# What `fstream_read` returns

The chunks of a file concatenate to the file without its header, and each ends at a record boundary
found by scanning the file from the left, or at the end of the file. One call depends on the buffer
and the unread bytes only through their concatenation, the rest of the file, which always starts at
a record boundary.

The backward search of text fails that where two occurrences of the delimiter can overlap: it may
find the second one, which scanning from the left does not. A delimiter as long as the buffer is not
found at all, and a last record that fills the buffer is an error. Everything else is read right.

Principal results: `chunk_spec` (one full buffer), `readAll_start` (all calls) and
`fstreamRead_iff`.
-/

namespace PolemoDB.Misc

open PolemoDB.Lib List Option Nat

/-! ## The searches find record ends -/

section

variable (fmt : RecordFormat) (data : List UInt8)

def textDelimiter : List UInt8 :=
  if fmt.line_delim_str = [] then [NL] else fmt.line_delim_str

theorem textDelimiter_ne_nil : textDelimiter fmt ≠ [] := by
  unfold textDelimiter
  split
  · simp
  · assumption

/-- How a file is cut into records from the left. -/
def recordScanner : Scanner UInt8 :=
  if fmt.is_csv then
    match fmt.eol_type with
    | .EOL_CRNL => (csvCrlf fmt).scanner
    | .EOL_CR => (csvCrOrLf fmt CR).scanner
    | .EOL_NL => (csvCrOrLf fmt NL).scanner
  else delimiterScanner (textDelimiter fmt) (textDelimiter_ne_nil fmt)

theorem recordScanner_text {fmt : RecordFormat} (h : fmt.is_csv = false) :
    recordScanner fmt = delimiterScanner (textDelimiter fmt) (textDelimiter_ne_nil fmt) := by
  unfold recordScanner
  rw [h]
  rfl

theorem firstMatch_newline :
    (data.findIdx? fun ch => ch = NL).map (· + 1) = firstMatch [NL] data := by
  induction data with
  | nil => rfl
  | cons b data ih =>
    rw [findIdx?_cons, firstMatch, ← ih]
    by_cases h : b = NL
    · simp [h]
    · simp [h, Ne.symm h]

theorem lastMatch_newline : (data.reverse.findIdx? fun ch => ch = NL).map (data.length - ·) =
    lastMatch [NL] data (data.length - 1) := by
  induction data using reverseRecOn with
  | nil => rfl
  | append_singleton data b ih =>
    have hat : OccursAt [NL] (data ++ [b]) data.length ↔ b = NL := by simp [OccursAt, eq_comm]
    rw [reverse_append, reverse_singleton, singleton_append, findIdx?_cons,
      length_append, length_singleton, Nat.add_sub_cancel]
    by_cases h : b = NL
    · rw [if_pos (by simpa using h)]
      cases hdata : data.length with
      | zero | succ n => rw [lastMatch, if_pos (hdata ▸ hat.2 h)]; rfl
    rw [if_neg (by simpa using h), Option.map_map]
    have hshift : ((data.length + 1 - ·) ∘ (· + 1) : ℕ → ℕ) = (data.length - ·) := by
      funext i
      simp only [Function.comp_apply]
      omega
    rw [hshift, ih]
    cases hdata : data.length with
    | zero =>
      obtain rfl := length_eq_zero_iff.1 hdata
      have hno : ¬ OccursAt [NL] ([] ++ [b]) 0 := fun hocc => h (hat.1 hocc)
      rw [lastMatch, lastMatch, if_neg hno]
      rfl
    | succ n =>
      rw [Nat.add_sub_cancel, lastMatch, if_neg (hdata ▸ fun hocc => h (hat.1 hocc)),
        lastMatch_append [b] (by rw [hdata, length_singleton])]

/-- **The header search** finds the first record end, except a delimiter that is all there is. -/
theorem firstRecordEnd_spec : firstRecordEnd fmt data = (recordScanner fmt).first data ∨
      fmt.is_csv = false ∧ firstRecordEnd fmt data = none ∧
        data.length ≤ fmt.line_delim_str.length ∧
        ((recordScanner fmt).first data = some data.length ∨
        (recordScanner fmt).first data = none) := by
  cases hcsv : fmt.is_csv with
  | true =>
    left
    unfold firstRecordEnd recordScanner scanCsvRecords
    rw [hcsv]
    cases fmt.eol_type <;> rfl
  | false =>
    have hd := textDelimiter_ne_nil fmt
    rw [recordScanner_text hcsv]
    show _ = firstMatch (textDelimiter fmt) data ∨
      _ ∧ _ ∧ _ ∧ (firstMatch (textDelimiter fmt) data = _ ∨
      firstMatch (textDelimiter fmt) data = none)
    by_cases hdelim : fmt.line_delim_str = []
    · left
      rw [firstRecordEnd, hcsv, if_neg Bool.false_ne_true, if_neg (by simp [hdelim]),
        firstMatch_newline, textDelimiter, if_pos hdelim]
    have htext : textDelimiter fmt = fmt.line_delim_str := if_neg hdelim
    rw [firstRecordEnd, hcsv, if_neg Bool.false_ne_true, if_pos (length_pos_iff.2 hdelim),
      findFirstEolDelim]
    split
    next hle =>
      refine .inr ⟨rfl, rfl, hle, ?_⟩
      cases hfirst : firstMatch (textDelimiter fmt) data with
      | none => exact .inr rfl
      | some n =>
        obtain ⟨i, rfl, hi, -⟩ := (firstMatch_some_iff hd data n).1 hfirst
        have := hi.le hd
        rw [htext] at this ⊢
        exact .inl (congrArg some (by omega))
    · left
      rw [htext]

/-- The records of the format end with a delimiter that can overlap itself. -/
def OverlappingDelimiter : Prop := fmt.is_csv = false ∧ Overlaps fmt.line_delim_str

end

/-- **The search for the last record end** is right on data longer than the delimiter. -/
theorem lastRecordEnd_isLast {fmt : RecordFormat} (hno : ¬ OverlappingDelimiter fmt)
    {data : List UInt8} (hlen : fmt.is_csv = false → fmt.line_delim_str.length < data.length) :
    IsLast (recordScanner fmt) data (lastRecordEnd fmt data) := by
  cases hcsv : fmt.is_csv with
  | true =>
    unfold lastRecordEnd recordScanner scanCsvRecords
    rw [hcsv]
    cases fmt.eol_type
    · exact (csvCrOrLf fmt NL).scan_isLast data
    · exact (csvCrOrLf fmt CR).scan_isLast data
    · exact (csvCrlf fmt).scan_isLast data
  | false =>
    have hd := textDelimiter_ne_nil fmt
    have hoverlaps : ¬ Overlaps (textDelimiter fmt) := by
      unfold textDelimiter
      split
      · rintro ⟨t, h₁, h₂, -⟩
        rw [length_singleton] at h₂
        omega
      · exact fun h => hno ⟨hcsv, h⟩
    have hlast := lastMatch_isLast hd hoverlaps data
    have hcode : lastRecordEnd fmt data =
        lastMatch (textDelimiter fmt) data (data.length - (textDelimiter fmt).length) := by
      by_cases hdelim : fmt.line_delim_str = []
      · rw [lastRecordEnd, hcsv, if_neg Bool.false_ne_true, if_neg (by simp [hdelim]),
          lastMatch_newline, textDelimiter, if_pos hdelim]
        rfl
      · rw [lastRecordEnd, hcsv, if_neg Bool.false_ne_true, if_pos (length_pos_iff.2 hdelim),
          findLastEolDelim, if_neg (not_le_of_gt (hlen hcsv)), textDelimiter, if_neg hdelim]
    rw [recordScanner_text hcsv, hcode]
    exact hlast

/-! ## Chunks of a file -/

section

variable (S : Scanner UInt8)

/-- Every record fits the buffer, with its delimiter if it has one. -/
def Fits (bufsize : ℕ) (l : List UInt8) : Prop := ∀ a, a = 0 ∨ Boundary S l a →
    (∀ n, S.first (l.drop a) = some n → n ≤ bufsize) ∧
      (S.first (l.drop a) = none → (l.drop a).length ≤ bufsize)

/-- The last record has no delimiter and is as long as the buffer. -/
def LastFills (bufsize : ℕ) (l : List UInt8) : Prop :=
  ∃ r, IsLast S l r ∧ (l.drop (r.getD 0)).length = bufsize

/-- Every record fits the buffer; a last record without a delimiter leaves room in it. -/
def LeavesRoom (bufsize : ℕ) (l : List UInt8) : Prop := ∀ a, a = 0 ∨
    Boundary S l a → (∀ n, S.first (l.drop a) = some n → n ≤ bufsize) ∧
      (S.first (l.drop a) = none → (l.drop a).length < bufsize)

/-- Cut into chunks that end at record boundaries, the last one possibly at the end. -/
inductive Cut (S : Scanner UInt8) : List UInt8 → List (List UInt8) → Prop where
  | nil : Cut S [] []
  | rest {l : List UInt8} (h : l ≠ []) : Cut S l [l]
  | record {l : List UInt8} {n : ℕ} {cs : List (List UInt8)} (h : Boundary S l n)
      (hcs : Cut S (l.drop n) cs) : Cut S l (l.take n :: cs)

/-- A record boundary of the file, or its end. -/
def EndsAt (file : List UInt8) (n : ℕ) : Prop := Boundary S file n ∨ n = file.length

/-- The chunks are the file without its first `h` bytes, and each ends at a record boundary of the
file or at its end. -/
structure WellCut (file : List UInt8) (h : ℕ) (cs : List (List UInt8)) : Prop where
  flatten : cs.flatten = file.drop h
  ends : ∀ pre c suf, cs = pre ++ c :: suf → c ≠ [] ∧
    EndsAt S file (h + pre.flatten.length + c.length)

end

section Chunks

variable {S : Scanner UInt8} {bufsize size : ℕ}

theorem leavesRoom_iff {l : List UInt8} :
    LeavesRoom S bufsize l ↔ Fits S bufsize l ∧ ¬ LastFills S bufsize l := by
  constructor
  · intro h
    refine ⟨fun a ha => ⟨(h a ha).1, fun hnone => ((h a ha).2 hnone).le⟩, ?_⟩
    rintro ⟨_ | n, hlast, hlen⟩
    · exact ((h 0 (.inl rfl)).2 hlast).ne hlen
    · exact ((h n (.inr hlast.1)).2 hlast.2).ne hlen
  rintro ⟨hfit, hfills⟩ a ha
  refine ⟨(hfit a ha).1, fun hnone => lt_of_le_of_ne ((hfit a ha).2 hnone) fun hlen => hfills ?_⟩
  rcases ha with rfl | ha
  · exact ⟨none, hnone, hlen⟩
  · exact ⟨some a, ⟨ha, hnone⟩, hlen⟩

theorem LeavesRoom.drop {l : List UInt8} (h : LeavesRoom S bufsize l) {a : ℕ}
    (ha : Boundary S l a) : LeavesRoom S bufsize (l.drop a) := by
  intro b hb
  rw [drop_drop]
  rcases hb with rfl | hb
  · exact h a (.inr ha)
  · exact h (a + b) (.inr (ha.trans hb))

theorem leavesRoom_nil (hpos : 0 < bufsize) : LeavesRoom S bufsize [] := by
  intro a _
  rw [drop_nil]
  exact ⟨fun n hn => absurd (S.bounds hn) (by simp; omega), fun _ => hpos⟩

/-- **One full destination**: the last record end in it is a boundary, and what follows fits the
buffer. -/
theorem chunk_spec {l : List UInt8} (hfit : LeavesRoom S bufsize l) (hsize : bufsize ≤ size)
    (hlen : size ≤ l.length) {r : Option ℕ} (hlast : IsLast S (l.take size) r) :
    ∃ n, r = some n ∧ n ≤ size ∧ size - n < bufsize ∧ Boundary S l n := by
  have htake : (l.take size).length = size := length_take_of_le hlen
  have hstart := hfit 0 (.inl rfl)
  rw [drop_zero] at hstart
  cases r with
  | none =>
    -- the first record of the rest fits, so it is seen
    cases hfirst : S.first l with
    | none => exact absurd (hstart.2 hfirst) (by omega)
    | some m =>
      have hm : m ≤ (l.take size).length := by
        have := hstart.1 m hfirst
        omega
      rw [← take_append_drop size l, S.stable hm] at hfirst
      exact absurd (hlast.symm.trans hfirst) (by simp)
  | some n =>
    obtain ⟨hB, hnone⟩ := hlast
    have hn : n ≤ size := htake ▸ hB.bounds.2
    have hBl : Boundary S l n := by
      have := hB.append (l.drop size)
      rwa [take_append_drop] at this
    have hafter := hfit n (.inr hBl)
    have hsplit : l.drop n = (l.take size).drop n ++ l.drop size := by
      rw [← drop_append_of_le_length (by omega), take_append_drop]
    refine ⟨n, rfl, hn, ?_, hBl⟩
    cases hfirst : S.first (l.drop n) with
    | none =>
      have := hafter.2 hfirst
      rw [length_drop] at this
      omega
    | some m =>
      have hm := hafter.1 m hfirst
      by_contra hge
      -- the next record would be complete in the destination
      have hseen : m ≤ ((l.take size).drop n).length := by
        rw [length_drop, htake]
        omega
      rw [hsplit, S.stable hseen] at hfirst
      exact absurd (hnone.symm.trans hfirst) (by simp)

theorem Cut.wellCut {file l : List UInt8} {cs : List (List UInt8)} (hcut : Cut S l cs) {h : ℕ}
    (hl : l = file.drop h) (hh : h = 0 ∨ Boundary S file h ∨ h = file.length) :
    WellCut S file h cs := by
  induction hcut generalizing h with
  | nil =>
    exact ⟨hl, fun pre c suf heq => absurd heq (by simp)⟩
  | @rest l hne =>
    have hlen := congrArg length hl
    rw [length_drop] at hlen
    have hpos := length_pos_iff.2 hne
    refine ⟨by simpa using hl, fun pre c suf heq => ?_⟩
    cases pre with
    | nil =>
      obtain ⟨rfl, -⟩ := cons.inj heq
      exact ⟨hne, .inr (by simp; omega)⟩
    | cons a pre => exact absurd heq (by simp)
  | @record l n cs hB _ ih =>
    have hbounds := hB.bounds
    have hnext : Boundary S file (h + n) := by
      rcases hh with rfl | hh | rfl
      · rw [zero_add]
        rwa [hl, drop_zero] at hB
      · exact hh.trans (hl ▸ hB)
      · rw [hl, drop_length, length_nil] at hbounds
        omega
    have hrest := ih (h := h + n) (by rw [hl, drop_drop]) (.inr (.inl hnext))
    have htake : (l.take n).length = n := length_take_of_le hbounds.2
    refine ⟨?_, fun pre c suf heq => ?_⟩
    · rw [flatten_cons, hrest.flatten, ← drop_drop, ← hl, take_append_drop]
    cases pre with
    | nil =>
      obtain ⟨rfl, -⟩ := cons.inj heq
      refine ⟨length_pos_iff.1 (by omega), .inl ?_⟩
      rw [htake]
      exact hnext
    | cons a pre =>
      rw [cons_append, cons.injEq] at heq
      obtain ⟨rfl, heq⟩ := heq
      have := hrest.ends pre c suf heq
      rwa [flatten_cons, length_append, htake, ← add_assoc h]

end Chunks

/-! ## The calls -/

section Calls

variable {fmt : RecordFormat} {header : Bool} {bufsize size : ℕ}

/-- Text has a delimiter that is not as long as the buffer and that, if it is shorter, cannot
overlap itself. -/
def DelimiterOk (fmt : RecordFormat) (bufsize : ℕ) : Prop := fmt.is_csv = false →
    fmt.line_delim_str.length ≠ bufsize ∧
    (fmt.line_delim_str.length < bufsize → ¬ Overlaps fmt.line_delim_str)

theorem delimiter_le_first (hcsv : fmt.is_csv = false) {l : List UInt8} {n : ℕ}
    (h : (recordScanner fmt).first l = some n) : fmt.line_delim_str.length ≤ n := by
  rw [recordScanner_text hcsv] at h
  obtain ⟨i, rfl, -, -⟩ := (firstMatch_some_iff (textDelimiter_ne_nil fmt) l n).1 h
  unfold textDelimiter
  split
  next hnil =>
    rw [hnil, length_nil]
    exact zero_le _
  · exact le_add_left _ _

theorem DelimiterOk.lt (hok : DelimiterOk fmt bufsize) (hcsv : fmt.is_csv = false) {l : List UInt8}
    {n : ℕ} (h : (recordScanner fmt).first l = some n) (hn : n ≤ bufsize) :
    fmt.line_delim_str.length < bufsize :=
  lt_of_le_of_ne ((delimiter_le_first hcsv h).trans hn) (hok hcsv).1

theorem DelimiterOk.isLast (hok : DelimiterOk fmt bufsize) (hsize : bufsize ≤ size) {l : List UInt8}
    (hfit : LeavesRoom (recordScanner fmt) bufsize l) (hlen : size ≤ l.length) :
    IsLast (recordScanner fmt) (l.take size) (lastRecordEnd fmt (l.take size)) := by
  have hstart := hfit 0 (.inl rfl)
  rw [drop_zero] at hstart
  obtain ⟨n, hn⟩ : ∃ n, (recordScanner fmt).first l = some n :=
    ne_none_iff_exists'.1 fun hnone => absurd (hstart.2 hnone) (by omega)
  have hlt := fun hcsv => hok.lt hcsv hn (hstart.1 n hn)
  refine lastRecordEnd_isLast (fun hover => (hok hover.1).2 (hlt hover.1) hover.2) fun hcsv => ?_
  rw [length_take_of_le hlen]
  exact (hlt hcsv).trans_le hsize

/-- How much of a file is skipped as its header. -/
def headerLength (fmt : RecordFormat) (header : Bool) (file : List UInt8) : ℕ :=
  if header then ((recordScanner fmt).first file).getD file.length else 0

/-- **The header is skipped**: the buffer and the unread bytes are the file after its first record.
-/
theorem skipHeader_spec (hok : DelimiterOk fmt bufsize) {file : List UInt8}
    (hfit : LeavesRoom (recordScanner fmt) bufsize file) :
    ∃ buffer fd, skipHeader fmt bufsize file [] = some (buffer, fd) ∧
      buffer ++ fd = file.drop (((recordScanner fmt).first file).getD file.length) ∧
      (buffer.length < bufsize ∨ buffer = []) := by
  have hstart := hfit 0 (.inl rfl)
  rw [drop_zero] at hstart
  rw [skipHeader, length_nil, Nat.sub_zero, nil_append]
  cases hfirst : (recordScanner fmt).first file with
  | none =>
    have hlen := hstart.2 hfirst
    have hdata : file.take bufsize = file := take_of_length_le hlen.le
    have hnone : firstRecordEnd fmt file = none := by
      rcases firstRecordEnd_spec fmt file with h | h
      · exact h.trans hfirst
      · exact h.2.1
    rw [hdata, hnone]
    rw [if_neg hlen.ne, drop_of_length_le hlen.le]
    exact ⟨[], [], rfl, by simp, .inr rfl⟩
  | some m =>
    have hm := hstart.1 m hfirst
    have hbounds := (recordScanner fmt).bounds hfirst
    have hseen : (recordScanner fmt).first (file.take bufsize) = some m := by
      have hle : m ≤ (file.take bufsize).length := by
        rw [length_take]
        omega
      rwa [← take_append_drop bufsize file, (recordScanner fmt).stable hle] at hfirst
    rcases firstRecordEnd_spec fmt (file.take bufsize) with h | ⟨hcsv, hnone, hshort, hall⟩
    · rw [h, hseen]
      refine ⟨_, _, rfl, ?_, .inl ?_⟩
      · rw [getD_some, ← drop_append_of_le_length (by rw [length_take]; omega), take_append_drop]
      · rw [length_drop, length_take]
        omega
    -- the file is the delimiter, which is shorter than the buffer
    have hlt := hok.lt hcsv hfirst hm
    have hlen : (file.take bufsize).length < bufsize := by omega
    have hfile : file.length < bufsize := by
      rw [length_take] at hlen
      omega
    have hmlen : m = file.length := by
      rw [hseen, take_of_length_le hfile.le] at hall
      simpa using hall
    rw [hnone]
    rw [if_neg hlen.ne, drop_of_length_le hfile.le]
    exact ⟨[], [], rfl, by simp [hmlen], .inr rfl⟩

theorem fstreamRead_middle (fmt : RecordFormat) (header : Bool)
    (bufsize : ℕ) {fd buffer : List UInt8} (files : List (List UInt8))
    (hbuf : buffer.length ≤ size) :
      fstreamRead fmt header bufsize size ⟨fd :: files, false, buffer⟩ =
      if (buffer ++ fd).length < size then
        if buffer ++ fd = [] then
          fstreamRead fmt header bufsize size ⟨files, if files.isEmpty then false else header, []⟩
        else some (buffer ++ fd, ⟨files, if files.isEmpty then false else header, []⟩)
      else
        match lastRecordEnd fmt ((buffer ++ fd).take size) with
        | none => none
        | some p =>
          if size - p ≥ bufsize then none
          else some (((buffer ++ fd).take size).take p,
            ⟨fd.drop (size - buffer.length) :: files, false,
            ((buffer ++ fd).take size).drop p⟩) := by
  have htake : buffer ++ fd.take (size - buffer.length) = (buffer ++ fd).take size := by
    rw [take_append, take_of_length_le hbuf]
  rw [fstreamRead, readLoop, if_neg Bool.false_ne_true]
  dsimp only
  rw [htake]
  have hshort : fd.length < size - buffer.length ↔ (buffer ++ fd).length < size := by
    rw [length_append]
    omega
  by_cases h : (buffer ++ fd).length < size
  · rw [if_pos (hshort.2 h), if_pos h, take_of_length_le h.le]
    rfl
  · rewrite [if_neg fun h' => h (hshort.1 h'), if_neg h, length_take_of_le (not_lt.1 h)]
    rfl

theorem readAll_congr {fs fs' : FStream}
    (h : fstreamRead fmt header bufsize size fs = fstreamRead fmt header bufsize size fs') (n : ℕ) :
    readAll fmt header bufsize size n fs = readAll fmt header bufsize size n fs' := by
  cases n with
  | zero => rfl
  | succ n => rw [readAll, readAll, h]

theorem readAll_chunk {fs fs' : FStream} {chunk : List UInt8}
    (h : fstreamRead fmt header bufsize size fs = some (chunk, fs')) (hne : chunk ≠ []) (n : ℕ) :
    readAll fmt header bufsize size (n + 1) fs =
    (readAll fmt header bufsize size n fs').map (chunk :: ·) := by
  rw [readAll, h]
  cases chunk with
  | nil => exact absurd rfl hne
  | cons b bs => rfl

/-- Each file is cut into chunks at its record boundaries, without its header. -/
def WellCutFiles (fmt : RecordFormat) (header : Bool) : List (List UInt8) →
    List (List (List UInt8)) → Prop :=
  List.Forall₂ fun file cs => WellCut (recordScanner fmt) file (headerLength fmt header file) cs

theorem readAll_middle (hok : DelimiterOk fmt bufsize) (hsize : bufsize ≤ size) {files :
    List (List UInt8)} (hfiles : ∀ n, files.flatten.length < n →
      ∃ css, WellCutFiles fmt header files css ∧
      readAll fmt header bufsize size n ⟨files, if files.isEmpty then false else header, []⟩ =
      some css.flatten)
    (k : ℕ) : ∀ {fd buffer : List UInt8}, (buffer ++ fd).length < k → buffer.length < bufsize →
      LeavesRoom (recordScanner fmt) bufsize (buffer ++ fd) → ∀ n, k + files.flatten.length ≤ n →
      ∃ cs css, Cut (recordScanner fmt) (buffer ++ fd) cs ∧ WellCutFiles fmt header files css ∧
        readAll fmt header bufsize size n ⟨fd :: files, false, buffer⟩ =
        some (cs ++ css.flatten) := by
  induction k with
  | zero => exact fun hlen => absurd hlen (not_lt_zero _)
  | succ k ih =>
    intro fd buffer hlen hbuf hfit n hn
    have hcall := @fstreamRead_middle size fmt header bufsize fd buffer files (hbuf.le.trans hsize)
    by_cases hshort : (buffer ++ fd).length < size
    · rw [if_pos hshort] at hcall
      by_cases hnil : buffer ++ fd = []
      · -- nothing is left of this file
        rw [if_pos hnil] at hcall
        obtain ⟨css, hcss, hread⟩ := hfiles n (by omega)
        refine ⟨[], css, hnil ▸ Cut.nil, hcss, ?_⟩
        rw [nil_append, ← hread]
        exact readAll_congr hcall n
      -- the rest of the file is the last chunk
      rw [if_neg hnil] at hcall
      have hpos := length_pos_iff.2 hnil
      obtain ⟨n, rfl⟩ : ∃ n', n = n' + 1 := ⟨n - 1, by omega⟩
      obtain ⟨css, hcss, hread⟩ := hfiles n (by omega)
      refine ⟨[buffer ++ fd], css, Cut.rest hnil, hcss, ?_⟩
      rw [readAll_chunk hcall hnil, hread]
      rfl
    · -- a full destination is cut at the last record end
      rw [not_lt] at hshort
      obtain ⟨p, hp, hpsize, hleft, hB⟩ :=
        chunk_spec hfit hsize hshort (hok.isLast hsize hfit hshort)
      have hbounds := hB.bounds
      rw [if_neg (not_lt.2 hshort), hp] at hcall
      dsimp only at hcall
      rw [if_neg (not_le.2 hleft), take_take, min_eq_left hpsize] at hcall
      have hrest : ((buffer ++ fd).take size).drop p ++
          fd.drop (size - buffer.length) = (buffer ++ fd).drop p := by
        have hfd : fd.drop (size - buffer.length) = (buffer ++ fd).drop size := by
          rw [drop_append, drop_of_length_le (hbuf.le.trans hsize), nil_append]
        rw [hfd, ← drop_append_of_le_length (by rw [length_take_of_le hshort]; exact hpsize),
          take_append_drop]
      obtain ⟨n, rfl⟩ : ∃ n', n = n' + 1 := ⟨n - 1, by omega⟩
      have hnext := @ih (fd.drop (size - buffer.length)) (((buffer ++ fd).take size).drop p)
      rw [hrest, length_drop, length_drop, length_take_of_le hshort] at hnext
      obtain ⟨cs, css, hcs, hcss, hread⟩ := hnext (by omega) hleft (hfit.drop hB) n (by omega)
      refine ⟨(buffer ++ fd).take p :: cs, css, Cut.record hB hcs, hcss, ?_⟩
      have hne : (buffer ++ fd).take p ≠ [] := by
        rw [← length_pos_iff, length_take_of_le hbounds.2]
        exact hbounds.1
      rw [readAll_chunk hcall hne, hread]
      rfl

theorem fstreamRead_start (hok : DelimiterOk fmt bufsize) (hpos : 0 < bufsize) {file : List UInt8}
    (hfit : LeavesRoom (recordScanner fmt) bufsize file) (files : List (List UInt8)) :
    ∃ buffer fd, buffer ++ fd = file.drop (headerLength fmt header file) ∧ buffer.length < bufsize ∧
      fstreamRead fmt header bufsize size ⟨file :: files, header, []⟩ =
        fstreamRead fmt header bufsize size ⟨fd :: files, false, buffer⟩ := by
  cases header with
  | false => exact ⟨[], file, rfl, hpos, rfl⟩
  | true =>
    obtain ⟨buffer, fd, hskip, hdrop, hbuf⟩ := skipHeader_spec hok hfit
    refine ⟨buffer, fd, hdrop, hbuf.elim id fun h => h ▸ hpos, ?_⟩
    rw [fstreamRead, fstreamRead, readLoop, readLoop, if_pos rfl, hskip]
    rfl

theorem leavesRoom_headerLength (hpos : 0 < bufsize) {file : List UInt8}
    (hfit : LeavesRoom (recordScanner fmt) bufsize file) :
    LeavesRoom (recordScanner fmt) bufsize (file.drop (headerLength fmt header file)) ∧
      (headerLength fmt header file = 0 ∨
        Boundary (recordScanner fmt) file (headerLength fmt header file) ∨
        headerLength fmt header file = file.length) := by
  unfold headerLength
  cases header with
  | false => exact ⟨hfit, .inl rfl⟩
  | true =>
    rw [if_pos rfl]
    cases hfirst : (recordScanner fmt).first file with
    | none =>
      rw [getD_none, drop_length]
      exact ⟨leavesRoom_nil hpos, .inr (.inr rfl)⟩
    | some m => exact ⟨hfit.drop (Boundary.first hfirst), .inr (.inl (Boundary.first hfirst))⟩

theorem readAll_start (hok : DelimiterOk fmt bufsize) (hpos : 0 < bufsize) (hsize : bufsize ≤ size)
    {files : List (List UInt8)}
    (hfit : ∀ file ∈ files, LeavesRoom (recordScanner fmt) bufsize file) :
    ∀ n, files.flatten.length < n → ∃ css, WellCutFiles fmt header files css ∧
      readAll fmt header bufsize size n ⟨files, if files.isEmpty then false else header, []⟩ =
        some css.flatten := by
  induction files with
  | nil =>
    intro n hn
    obtain ⟨n, rfl⟩ : ∃ n', n = n' + 1 := ⟨n - 1, by omega⟩
    exact ⟨[], Forall₂.nil, rfl⟩
  | cons file files ih =>
    intro n hn
    rw [flatten_cons, length_append] at hn
    have hfile := hfit file mem_cons_self
    obtain ⟨buffer, fd, hrest, hbuf, hcall⟩ :=
      @fstreamRead_start fmt header bufsize size hok hpos file hfile files
    obtain ⟨hfitrest, hheader⟩ := @leavesRoom_headerLength fmt header bufsize hpos file hfile
    have hlen : (buffer ++ fd).length ≤ file.length := by
      rw [hrest, length_drop]
      exact sub_le _ _
    obtain ⟨cs, css, hcut, hcss, hread⟩ := readAll_middle hok hsize
      (ih fun f hf => hfit f (mem_cons_of_mem _ hf)) (file.length + 1) (lt_succ_of_le hlen) hbuf
      (hrest ▸ hfitrest) n (by omega)
    refine ⟨cs :: css, Forall₂.cons (hcut.wellCut hrest hheader) hcss, ?_⟩
    rw [flatten_cons, ← hread]
    exact readAll_congr hcall n

end Calls

/-! ## When the reader is right -/

/-- The calls until one returns 0 raise no error, and their chunks are the files cut at record
boundaries. -/
def ReadsWell (fmt : RecordFormat) (header : Bool) (bufsize size : ℕ) (files : List (List UInt8)) :
    Prop :=
  ∃ n css, readAll fmt header bufsize size n (fstreamOpen header files) = some css.flatten ∧
    WellCutFiles fmt header files css

theorem readsWell_of_delimiterOk {fmt : RecordFormat} {bufsize size : ℕ}
    (hok : DelimiterOk fmt bufsize) (hpos : 0 < bufsize) (hsize : bufsize ≤ size)
    (header : Bool) {files : List (List UInt8)}
    (hfit : ∀ file ∈ files, LeavesRoom (recordScanner fmt) bufsize file) :
    ReadsWell fmt header bufsize size files := by
  cases files with
  | nil => exact ⟨1, [], rfl, Forall₂.nil⟩
  | cons file files =>
    obtain ⟨css, hcss, hread⟩ :=
      @readAll_start fmt header bufsize size hok hpos hsize _ hfit _ (lt_succ_self _)
    exact ⟨_, css, hread, hcss⟩

section OneRecord

variable {S : Scanner UInt8} {l : List UInt8} {m : ℕ}

theorem Boundary.eq_of_single (hfirst : S.first l = some m) (hnone : S.first (l.drop m) = none)
    {a : ℕ} (h : Boundary S l a) : a = m := by
  cases h with
  | first h => exact some.inj (h.symm.trans hfirst)
  | next h hnext =>
    obtain rfl := some.inj (h.symm.trans hfirst)
    cases hnext with
    | first h' | next h' => exact absurd (hnone.symm.trans h') (by simp)

theorem leavesRoom_of_single (hfirst : S.first l = some m) (hnone : S.first (l.drop m) = none)
    {bufsize : ℕ} (hm : m ≤ bufsize) (hrest : l.length - m < bufsize) : LeavesRoom S bufsize l := by
  rintro a (rfl | ha)
  · rw [drop_zero, hfirst]
    exact ⟨fun n hn => some.inj hn ▸ hm, nofun⟩
  · obtain rfl := Boundary.eq_of_single hfirst hnone ha
    rw [hnone, length_drop]
    exact ⟨fun n hn => absurd hn (by simp), fun _ => hrest⟩

end OneRecord

section Necessity

variable {fmt : RecordFormat} {bufsize size : ℕ}

theorem not_readsWell_of_error {header : Bool} {files : List (List UInt8)}
    (h : fstreamRead fmt header bufsize size (fstreamOpen header files) = none) :
    ¬ ReadsWell fmt header bufsize size files := by
  rintro ⟨n, css, hread, -⟩
  cases n with
  | zero => exact absurd hread (by simp [readAll])
  | succ n => exact absurd hread (by simp [readAll, h])

/-- **A last record that fills the buffer** is an error if the destination is as long as the file.
-/
theorem not_readsWell_of_lastFills (hok : DelimiterOk fmt bufsize) (hpos : 0 < bufsize)
    {file : List UInt8} (hfit : Fits (recordScanner fmt) bufsize file)
    (hfills : LastFills (recordScanner fmt) bufsize file) :
    bufsize ≤ file.length ∧ ¬ ReadsWell fmt false bufsize file.length [file] := by
  obtain ⟨r, hr, hlen⟩ := hfills
  rw [length_drop] at hlen
  have hlast : lastRecordEnd fmt file = none ∨ lastRecordEnd fmt file = r := by
    by_cases hlong : fmt.is_csv = false ∧ file.length ≤ fmt.line_delim_str.length
    · left
      rw [lastRecordEnd, hlong.1, if_neg Bool.false_ne_true, if_pos (by omega), findLastEolDelim,
        if_pos hlong.2]
    right
    refine (lastRecordEnd_isLast (fun hover => ?_) fun hcsv => ?_).unique hr
    · -- the delimiter is longer than the buffer, so no record has one
      have hdelim := hok hover.1
      have hstart := hfit 0 (.inl rfl)
      rw [drop_zero] at hstart
      have hlt : bufsize < fmt.line_delim_str.length :=
        lt_of_le_of_ne (not_lt.1 fun h => hdelim.2 h hover.2) hdelim.1.symm
      cases hfirst : (recordScanner fmt).first file with
      | none =>
        have := hstart.2 hfirst
        exact hlong ⟨hover.1, by omega⟩
      | some n =>
        have := hstart.1 n hfirst
        have := delimiter_le_first hover.1 hfirst
        omega
    · exact not_le.1 fun h => hlong ⟨hcsv, h⟩
  refine ⟨by omega, not_readsWell_of_error ?_⟩
  rw [fstreamOpen, fstreamRead_middle fmt false bufsize [] (zero_le _), nil_append,
    if_neg (lt_irrefl _), take_length]
  rcases hlast with h | h
  · rw [h]
  rw [h]
  cases r with
  | none => rfl
  | some p => exact if_pos hlen.ge

theorem not_readsWell_of_delimiter_length (hcsv : fmt.is_csv = false) (hpos : 0 < bufsize)
    (hlen : fmt.line_delim_str.length = bufsize) :
    LeavesRoom (recordScanner fmt) bufsize fmt.line_delim_str ∧
      ¬ ReadsWell fmt false bufsize bufsize [fmt.line_delim_str] := by
  have hd : fmt.line_delim_str ≠ [] := length_pos_iff.1 (hlen ▸ hpos)
  have htext : textDelimiter fmt = fmt.line_delim_str := if_neg hd
  constructor
  · have hfirst : (recordScanner fmt).first fmt.line_delim_str = some bufsize := by
      rw [recordScanner_text hcsv]
      refine (firstMatch_some_iff (textDelimiter_ne_nil fmt) _ _).2
        ⟨0, ?_, ?_, fun j hj => absurd hj (not_lt_zero j)⟩
      · rw [htext, hlen, zero_add]
      · rw [htext]
        exact prefix_rfl
    have hnone : (recordScanner fmt).first (fmt.line_delim_str.drop bufsize) = none := by
      rw [drop_of_length_le hlen.le]
      cases h : (recordScanner fmt).first [] with
      | none => rfl
      | some n => exact absurd ((recordScanner fmt).bounds h) (by simp; omega)
    exact leavesRoom_of_single hfirst hnone le_rfl (by omega)
  · refine not_readsWell_of_error ?_
    rw [fstreamOpen, fstreamRead_middle fmt false bufsize [] (zero_le _), nil_append,
      if_neg (by omega), take_of_length_le hlen.le, lastRecordEnd, hcsv, if_neg Bool.false_ne_true,
      if_pos (by omega), findLastEolDelim, if_pos le_rfl]

theorem exists_ne_byte (b : UInt8) : ∃ c : UInt8, c ≠ b := by
  by_cases h : b = 0
  · exact ⟨1, h ▸ by decide⟩
  · exact ⟨0, fun h' => h h'.symm⟩

/-- The delimiter after its own shift, with bytes before that start no delimiter and one behind that
ends none. -/
def overlapFile (d : List UInt8) (t p : ℕ) (c e : UInt8) : List UInt8 :=
  List.replicate p c ++ (d.take t ++ d) ++ [e]

variable {d : List UInt8} {t : ℕ}

theorem firstMatch_overlapFile (ht : t < d.length) (hshift : d.drop t = d.take (d.length - t))
    {c : UInt8} (hc : d.head? ≠ some c) (p : ℕ) (e : UInt8) :
    firstMatch d (overlapFile d t p c e) = some (p + d.length) := by
  have hd : d ≠ [] := length_pos_iff.1 (by omega)
  refine (firstMatch_some_iff hd _ _).2 ⟨p, rfl, ?_, ?_⟩
  · unfold OccursAt overlapFile
    rw [append_assoc, drop_append_of_le_length (by simp), drop_of_length_le (by simp),
      nil_append, append_assoc]
    conv_lhs => rw [← take_append_drop t d, hshift]
    exact (prefix_append_right_inj _).2 ((List.take_prefix _ _).trans (prefix_append _ _))
  intro j hj hocc
  unfold OccursAt overlapFile at hocc
  rw [append_assoc, drop_append_of_le_length (by simp; omega), drop_replicate] at hocc
  obtain ⟨q, hq⟩ : ∃ q, p - j = q + 1 := ⟨p - j - 1, by omega⟩
  rw [hq, replicate_succ] at hocc
  obtain ⟨rest, hrest⟩ := hocc
  cases d with
  | nil => exact hd rfl
  | cons b d => exact hc (by simpa using (cons.inj hrest).1)

theorem firstMatch_overlapFile_drop (ht : t < d.length) {e : UInt8} (he : d.getLast? ≠ some e)
    (p : ℕ) (c : UInt8) : firstMatch d ((overlapFile d t p c e).drop (p + d.length)) = none := by
  have hd : d ≠ [] := length_pos_iff.1 (by omega)
  refine (firstMatch_eq_none_iff hd _).2 fun i hi => ?_
  have hle := hi.le hd
  have hlen : ((overlapFile d t p c e).drop (p + d.length)).length = t + 1 := by
    unfold overlapFile
    simp
    omega
  obtain rfl : i = 0 := by omega
  -- what is left is as long as the delimiter, so it is the delimiter
  have heq : d = (overlapFile d t p c e).drop (p + d.length) := by
    rw [OccursAt, drop_zero] at hi
    exact hi.eq_of_length (by omega)
  refine he ?_
  rw [heq, overlapFile, drop_append_of_le_length (by simp), getLast?_append]
  rfl

theorem length_overlapFile (ht : t < d.length) (p : ℕ) (c e : UInt8) :
    (overlapFile d t p c e).length = p + (d.length + t) + 1 := by
  unfold overlapFile
  simp
  omega

variable (hcsv : fmt.is_csv = false)
include hcsv

theorem fstreamRead_overlapFile (hdel : fmt.line_delim_str = d)
    (ht : 0 < t) (htd : t < d.length) (hpos : 0 < bufsize) (p : ℕ) (c e : UInt8) :
    fstreamRead fmt false bufsize (p + (d.length + t)) ⟨[overlapFile d t p c e], false, []⟩ =
      some ((overlapFile d t p c e).take (p + (d.length + t)),
        ⟨[(overlapFile d t p c e).drop (p + (d.length + t))], false, []⟩) := by
  have hfile := length_overlapFile htd p c e
  have htake : (overlapFile d t p c e).take (p + (d.length + t)) = replicate p c ++
      (d.take t ++ d) := by
    unfold overlapFile
    rw [take_append_of_le_length (by simp; omega), take_of_length_le (by simp; omega)]
  have hlen : (replicate p c ++ (d.take t ++ d)).length = p + (d.length + t) := by
    simp
    omega
  have hocc : OccursAt d (replicate p c ++ (d.take t ++ d)) (p + t) := by
    unfold OccursAt
    rw [← append_assoc, drop_append, drop_of_length_le (by simp)]
    simp [length_take_of_le htd.le]
  have hlast : lastRecordEnd fmt (replicate p c ++ (d.take t ++ d)) =
      some (p + (d.length + t)) := by
    rw [lastRecordEnd, hcsv, if_neg Bool.false_ne_true, hdel, if_pos (by omega), findLastEolDelim,
      hlen, if_neg (by omega), show p + (d.length + t) - d.length = p + t by omega,
      lastMatch_of_occursAt hocc]
    exact congrArg some (by omega)
  rw [fstreamRead_middle fmt false bufsize [] (zero_le _), nil_append, if_neg (by omega), htake,
    hlast]
  dsimp only
  rw [if_neg (by omega), take_of_length_le hlen.le, drop_of_length_le hlen.le]
  rfl

theorem not_readsWell_overlapFile (hdel : fmt.line_delim_str = d)
    (hlen : d.length < bufsize) (ht : 0 < t) (htd : t < d.length)
    (hshift : d.drop t = d.take (d.length - t)) {c e : UInt8} (hc : d.head? ≠ some c)
    (he : d.getLast? ≠ some e) {p : ℕ} (hp : p + d.length ≤ bufsize) :
    LeavesRoom (recordScanner fmt) bufsize (overlapFile d t p c e) ∧
      ¬ EndsAt (recordScanner fmt) (overlapFile d t p c e) (p + (d.length + t)) ∧
      ¬ ReadsWell fmt false bufsize (p + (d.length + t)) [overlapFile d t p c e] := by
  have hscan : ∀ l, (recordScanner fmt).first l = firstMatch d l := by
    intro l
    have htext : textDelimiter fmt = d := hdel ▸ if_neg (length_pos_iff.1 (by rw [hdel]; omega))
    rw [recordScanner_text hcsv]
    exact congrArg (firstMatch · l) htext
  have hfirst := (hscan _).trans (firstMatch_overlapFile htd hshift hc p e)
  have hnone := (hscan _).trans (firstMatch_overlapFile_drop htd he p c)
  have hfile := length_overlapFile htd p c e
  have hends : ¬ EndsAt (recordScanner fmt) (overlapFile d t p c e) (p + (d.length + t)) := by
    rintro (hB | hend)
    · have := Boundary.eq_of_single hfirst hnone hB
      omega
    · omega
  refine ⟨leavesRoom_of_single hfirst hnone hp (by omega), hends, ?_⟩
  rintro ⟨n, css, hread, hcss⟩
  have htake : ((overlapFile d t p c e).take (p + (d.length + t))).length = p + (d.length + t) :=
    length_take_of_le (by omega)
  have hne : (overlapFile d t p c e).take (p + (d.length + t)) ≠ [] := length_pos_iff.1 (by omega)
  cases n with
  | zero => exact absurd hread (by simp [readAll])
  | succ n =>
    rw [fstreamOpen, readAll_chunk (fstreamRead_overlapFile hcsv hdel ht htd (by omega) p c e) hne]
      at hread
    cases hcss with
    | cons hcs hnil =>
      cases hnil
      obtain ⟨cs', -, hcs'⟩ := map_eq_some_iff.1 hread
      rw [flatten_singleton] at hcs'
      have hchunk := (hcs.ends [] _ cs' hcs'.symm).2
      rw [flatten_nil, length_nil, htake, headerLength, if_neg Bool.false_ne_true,
        Nat.zero_add] at hchunk
      exact hends hchunk

theorem not_readsWell_of_overlaps
    (hlen : fmt.line_delim_str.length < bufsize) (hover : Overlaps fmt.line_delim_str) :
      ∃ size file, bufsize ≤ size ∧ LeavesRoom (recordScanner fmt) bufsize file ∧
      ¬ ReadsWell fmt false bufsize size [file] := by
  obtain ⟨t, ht, htd, hshift⟩ := hover
  have hd : fmt.line_delim_str ≠ [] := length_pos_iff.1 (by omega)
  obtain ⟨c, hc⟩ := exists_ne_byte (fmt.line_delim_str.head hd)
  obtain ⟨e, he⟩ := exists_ne_byte (fmt.line_delim_str.getLast hd)
  obtain ⟨hfit, -, hnot⟩ :=
    @not_readsWell_overlapFile fmt bufsize _ t hcsv rfl hlen ht htd hshift c e
    (by rw [head?_eq_some_head hd]; simpa using hc.symm)
    (by rw [getLast?_eq_some_getLast hd]; simpa using he.symm)
    (bufsize - (fmt.line_delim_str.length + t)) (by omega)
  exact ⟨_, _, by omega, hfit, hnot⟩

end Necessity

/-- **The reader is right for every header flag, destination and list of files** whose records fit
the buffer and whose last record does not fill it exactly if the delimiter of text is not as long as
the buffer and, if it is shorter, cannot overlap itself. With such a delimiter, a file whose records
fit is read right into every destination exactly if its last record does not fill the buffer. -/
theorem fstreamRead_iff (fmt : RecordFormat) (bufsize : ℕ) (hpos : 1 ≤ bufsize) :
    ((∀ (header : Bool) (size : ℕ) (files : List (List UInt8)), bufsize ≤ size →
      (∀ file ∈ files, Fits (recordScanner fmt) bufsize file ∧
        ¬ LastFills (recordScanner fmt) bufsize file) →
        ReadsWell fmt header bufsize size files) ↔ DelimiterOk fmt bufsize) ∧
    (DelimiterOk fmt bufsize → ∀ file, Fits (recordScanner fmt) bufsize file →
      ((∀ (header : Bool) (size : ℕ), bufsize ≤ size → ReadsWell fmt header bufsize size [file]) ↔
        ¬ LastFills (recordScanner fmt) bufsize file)) := by
  simp only [← leavesRoom_iff]
  refine ⟨⟨fun h hcsv => ⟨fun hlen => ?_, fun hlt hover => ?_⟩,
    fun hok header size files hsize hfit => ?_⟩,
    fun hok file hfit => ⟨fun h hfills => ?_, fun hfills header size hsize => ?_⟩⟩
  · obtain ⟨hfit, hnot⟩ := not_readsWell_of_delimiter_length hcsv hpos hlen
    exact hnot (h false bufsize _ le_rfl (by simpa using hfit))
  · obtain ⟨size, file, hsize, hfit, hnot⟩ := not_readsWell_of_overlaps hcsv hlt hover
    exact hnot (h false size _ hsize (by simpa using hfit))
  · exact readsWell_of_delimiterOk hok hpos hsize header hfit
  · obtain ⟨hsize, hnot⟩ := not_readsWell_of_lastFills hok hpos hfit hfills
    exact hnot (h false _ hsize)
  · have hroom := leavesRoom_iff.2 ⟨hfit, hfills⟩
    exact readsWell_of_delimiterOk hok hpos hsize header (by simpa using hroom)

def textFormat (line_delim_str : List UInt8) : RecordFormat :=
  ⟨false, .EOL_NL, 34, 34, line_delim_str⟩

/-- Lines of up to four bytes, among them the file `ab\nc` with its first line as a header. -/
theorem fstreamRead_lines : DelimiterOk (textFormat []) 4 ∧
    (∀ (header : Bool) (size : ℕ) (files : List (List UInt8)), 4 ≤ size →
      (∀ file ∈ files, Fits (recordScanner (textFormat [])) 4 file ∧
        ¬ LastFills (recordScanner (textFormat [])) 4 file) →
      ReadsWell (textFormat []) header 4 size files) ∧
    ReadsWell (textFormat []) true 4 4 [[97, 98, 10, 99]] := by
  have hok : DelimiterOk (textFormat []) 4 := by
    refine fun _ => ⟨by decide, fun _ => ?_⟩
    rintro ⟨t, -, ht, -⟩
    exact not_lt_zero t ht
  have hall := (fstreamRead_iff (textFormat []) 4 (by decide)).1.2 hok
  have hroom : LeavesRoom (recordScanner (textFormat [])) 4 [97, 98, 10, 99] :=
    leavesRoom_of_single (m := 3) rfl rfl (by decide) (by decide)
  refine ⟨hok, hall, hall true 4 _ le_rfl ?_⟩
  simpa using leavesRoom_iff.1 hroom

/-- The file `abc` is one record, which a buffer of three bytes holds, and an error with a
destination of three bytes. The records of `aaab` with delimiter `aa` are `aa` and `ab`; with a
buffer and a destination of three bytes the first call returns `aaa`. With a buffer of two bytes the
file `aa` is an error. -/
theorem fstreamRead_wrong : (Fits (recordScanner (textFormat [])) 3 [97, 98, 99] ∧
      fstreamRead (textFormat []) false 3 3 (fstreamOpen false [[97, 98, 99]]) = none ∧
      ¬ ReadsWell (textFormat []) false 3 3 [[97, 98, 99]]) ∧
    (Fits (recordScanner (textFormat [97, 97])) 3 [97, 97, 97, 98] ∧
      fstreamRead (textFormat [97, 97]) false 3 3 (fstreamOpen false [[97, 97, 97, 98]]) =
        some ([97, 97, 97], ⟨[[98]], false, []⟩) ∧
      ¬ EndsAt (recordScanner (textFormat [97, 97])) [97, 97, 97, 98] 3 ∧
      ¬ ReadsWell (textFormat [97, 97]) false 3 3 [[97, 97, 97, 98]]) ∧
    (Fits (recordScanner (textFormat [97, 97])) 2 [97, 97] ∧
      fstreamRead (textFormat [97, 97]) false 2 2 (fstreamOpen false [[97, 97]]) = none ∧
      ¬ ReadsWell (textFormat [97, 97]) false 2 2 [[97, 97]]) := by
  have hfit : Fits (recordScanner (textFormat [])) 3 [97, 98, 99] := by
    rintro a (rfl | ha)
    · exact ⟨nofun, fun _ => le_rfl⟩
    · exact absurd rfl ha.first_ne_none
  obtain ⟨hroom, hends, hnot⟩ :=
    @not_readsWell_overlapFile (textFormat [97, 97]) 3 [97, 97] 1 rfl rfl (by decide)
    (by decide) (by decide) rfl 98 98 (by decide) (by decide) 0 (by decide)
  obtain ⟨hroom', hnot'⟩ :=
    @not_readsWell_of_delimiter_length (textFormat [97, 97]) 2 rfl (by decide) rfl
  exact ⟨⟨hfit, rfl, not_readsWell_of_error rfl⟩, ⟨(leavesRoom_iff.1 hroom).1, rfl, hends, hnot⟩,
    (leavesRoom_iff.1 hroom').1, rfl, hnot'⟩

end PolemoDB.Misc
