import PolemoDB.Lib.RecordScan

/-!
# Reading files record by record (`utils/misc/fstream/fstream.c`)

`fstream_read` with `read_whole_lines` returns chunks of whole records out of a list of files. Text
is searched backwards for the last delimiter, CSV is scanned from the left; what follows the last
record is kept in the buffer for the next call. Reads return fewer bytes than asked only at the end
of a file.

`foff` and `line_number`, which are reported beside the data, are left out, and so is the failure to
open a file.
-/

namespace PolemoDB.Misc

open PolemoDB.Lib

/-! ## Record ends -/

inductive EolType where
  | EOL_NL
  | EOL_CR
  | EOL_CRNL
deriving DecidableEq

/-- How records end: the options of the stream and the `line_delim_str` of the calls, empty for the
default newline. -/
structure RecordFormat where
  is_csv : Bool
  eol_type : EolType
  quote : UInt8
  escape : UInt8
  line_delim_str : List UInt8

def NL : UInt8 := 10
def CR : UInt8 := 13

/-- `in_quote` and `last_was_esc` of the CSV scans; the latter is only set inside a quote. -/
inductive CsvState where
  | outside
  | quoted
  | escaped
deriving DecidableEq

variable (fmt : RecordFormat)

/-- The two scans inside a quote. -/
def csvQuoted (last_was_esc : Bool) (ch : UInt8) : CsvState :=
  if !last_was_esc then
    if ch = fmt.quote then .outside else if ch = fmt.escape then .escaped else .quoted
  else .quoted

/-- `scan_csv_records_cr_or_lf`: one character. -/
def csvCrOrLf (nc : UInt8) : RecordMachine CsvState UInt8 where
  init := .outside
  step := fun s ch =>
    match s with
    | .quoted => (csvQuoted fmt false ch, false)
    | .escaped => (csvQuoted fmt true ch, false)
    | .outside => if ch = nc then (.outside, true) else if ch =
      fmt.quote then (.quoted, false) else (.outside, false)
  reset := by
    intro s ch
    cases s <;> dsimp only
    · split
      · exact fun _ => rfl
      · split <;> exact nofun
    · exact nofun
    · exact nofun

/-- `scan_csv_records_crlf`: one character; of the last character the scan only asks whether it was
`\r`. -/
def csvCrlf : RecordMachine (CsvState × Bool) UInt8 where
  init := (.outside, false)
  step := fun (s, lastIsCr) ch =>
    match s with
    | .quoted => ((csvQuoted fmt false ch, ch = CR), false)
    | .escaped => ((csvQuoted fmt true ch, ch = CR), false)
    | .outside =>
      if ch = NL && lastIsCr then ((.outside, ch = CR), true)
      else if ch = fmt.quote then ((.quoted, ch = CR), false)
      else ((.outside, ch = CR), false)
  reset := by
    rintro ⟨s, lastIsCr⟩ ch
    cases s <;> dsimp only
    · split
      next h =>
        obtain ⟨rfl, -⟩ : ch = NL ∧ lastIsCr = true := by simpa using h
        exact fun _ => rfl
      · split <;> exact nofun
    · exact nofun
    · exact nofun

/-- `scan_csv_records`: the offset of `last_record_loc`. -/
def scanCsvRecords (one : Bool) (data : List UInt8) : Option ℕ :=
  match fmt.eol_type with
  | .EOL_CRNL => (csvCrlf fmt).scan one (csvCrlf fmt).init data 0 none
  | .EOL_CR => (csvCrOrLf fmt CR).scan one (csvCrOrLf fmt CR).init data 0 none
  | .EOL_NL => (csvCrOrLf fmt NL).scan one (csvCrOrLf fmt NL).init data 0 none

/-- `find_last_eol_delim`, one past what it returns; `none` if the delimiter does not appear. -/
def findLastEolDelim (data delimiter : List UInt8) : Option ℕ :=
  if data.length ≤ delimiter.length then none else lastMatch delimiter data
  (data.length - delimiter.length)

/-- `find_first_eol_delim`, one past what it returns; `none` if the delimiter does not appear. -/
def findFirstEolDelim (data delimiter : List UInt8) : Option ℕ :=
  if data.length ≤ delimiter.length then none else firstMatch delimiter data

def firstRecordEnd (data : List UInt8) : Option ℕ :=
  if fmt.is_csv then scanCsvRecords fmt true data
  else if 0 < fmt.line_delim_str.length then findFirstEolDelim data fmt.line_delim_str
  else (data.findIdx? fun ch => ch = NL).map (· + 1)

def lastRecordEnd (data : List UInt8) : Option ℕ :=
  if fmt.is_csv then scanCsvRecords fmt false data
  else if 0 < fmt.line_delim_str.length then findLastEolDelim data fmt.line_delim_str
  else (data.reverse.findIdx? fun ch => ch = NL).map (data.length - ·)

/-! ## The stream -/

/-- `fstream_t`: the unread bytes of the open file, and the files after it; no file at all is
`fidx == gl_pathc`. -/
structure FStream where
  fds : List (List UInt8)
  skip_header_line : Bool
  buffer : List UInt8

/-- The part of `fstream_read` that skips a header: the buffer and the unread bytes after it; `none`
is the error that the header is too long. -/
def skipHeader (bufsize : ℕ) (fd buffer : List UInt8) : Option (List UInt8 × List UInt8) :=
  let len := bufsize - buffer.length
  let data := buffer ++ fd.take len
  match firstRecordEnd fmt data with
  | some p => some (data.drop p, fd.drop len)
  | none => if data.length = bufsize then none else some ([], fd.drop len)

/-- `fstream_read` with `read_whole_lines`: the bytes it returns and the stream after it; `none` is
an error. A file of which nothing is left makes it go on with the next one. -/
def readLoop (fmt : RecordFormat) (header : Bool) (bufsize size : ℕ) :
    List (List UInt8) → Bool → List UInt8 → Option (List UInt8 × FStream)
  | [], skip, buffer => some ([], ⟨[], skip, buffer⟩)
  | fd :: files, skip, buffer =>
    match if skip then skipHeader fmt bufsize fd buffer else some (buffer, fd) with
    | none => none
    | some (buffer, fd) =>
      let dest := buffer ++ fd.take (size - buffer.length)
      -- `nextFile` sets the flag only if there is one
      let skip := if files.isEmpty then false else header
      if fd.length < size - buffer.length then
        if dest = [] then readLoop fmt header bufsize size files skip []
        else some (dest, ⟨files, skip, []⟩)
      else
        match lastRecordEnd fmt dest with
        | none => none
        | some p =>
          if dest.length - p ≥ bufsize then none
          else some (dest.take p, ⟨fd.drop (size - buffer.length) :: files, false, dest.drop p⟩)

def fstreamRead (header : Bool) (bufsize size : ℕ) (fs : FStream) : Option (List UInt8 × FStream) :=
  readLoop fmt header bufsize size fs.fds fs.skip_header_line fs.buffer

/-- The chunks of up to `n` calls, the last of which returns 0; `none` if one of them fails or none
returns 0. -/
def readAll (fmt : RecordFormat) (header : Bool) (bufsize size : ℕ) : ℕ → FStream →
    Option (List (List UInt8))
  | 0, _ => none
  | n + 1, fs =>
    match fstreamRead fmt header bufsize size fs with
    | none => none
    | some ([], _) => some []
    | some (chunk, fs) => (readAll fmt header bufsize size n fs).map (chunk :: ·)

def fstreamOpen (header : Bool) (files : List (List UInt8)) : FStream := ⟨files, header, []⟩

end PolemoDB.Misc
