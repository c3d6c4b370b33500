import WbServer.Log.Level

/-!
# `LogFormatter`

`LogFormatter::init` scans the pattern with an outer loop over the index `i` and, behind a
`%`, an inner loop over the index `n`; both are followed here index by index. It collects
tuples of a text, an argument and a type, from which it then builds the items.

A `std::string` is a list of bytes; its bytes are the characters below 256 here. `isalpha`
is that of the C locale.
-/

namespace WbServer

/-! ### Items -/

/-- The members of `LogEvent` that the items print, and the name of its logger. -/
structure LogEvent where
  loggerName : String
  file : String
  line : ℤ
  elapse : ℕ
  thread : ℤ
  fiberid : ℕ
  time : ℕ
  threadName : String
  content : String

/-- The subclasses of `LogFormatter::FormatItem`, with the members they store. -/
inductive FormatItem where
  | message
  | level
  | elapse
  | name
  | threadId
  | newLine
  | dateTime (mFormat : String)
  | filename
  | line
  | tab (mString : String)
  | fiberId
  | threadName
  | string (mString : String)
  deriving DecidableEq

/-- `strftime`: the text of a time in a format, and what is read from a buffer that is too small
for the text, of which nothing is known. -/
structure Strftime where
  text : String → ℕ → String
  rest : String → ℕ → String

namespace Strftime

/-- What is printed of `char buf[64]` behind `strftime(buf, sizeof(buf), ...)`, the result of
which is not looked at. -/
def buf (strftime : Strftime) (format : String) (time : ℕ) : String :=
  if (strftime.text format time).length < 64 then strftime.text format time
  else strftime.rest format time

/-- All texts of times come out as they are. -/
def ofText (text : String → ℕ → String) : Strftime where
  text := text
  rest := text

@[simp]
theorem buf_ofText (text : String → ℕ → String) (format : String) (time : ℕ) :
  (ofText text).buf format time = text format time
  := ite_self _

/-- The beginning of the epoch in the format of the loggers. -/
def epoch : Strftime :=
  ofText fun format _ =>
    if format = "%Y-%m-%d %H:%M:%S" then "1970-01-01 00:00:00" else format

end Strftime

namespace FormatItem

/-- The constructor of `DateTimeFormatItem`. -/
def newDateTime (format : String) : FormatItem :=
  if format = "" then .dateTime "%Y-%m-%d %H:%M:%S" else .dateTime format

/-- What an item writes. -/
def format (strftime : Strftime) (level : LogLevel) (event : LogEvent) :
    FormatItem → String
  | .message => event.content
  | .level => level.toString
  | .elapse => toString event.elapse
  | .name => event.loggerName
  | .threadId => toString event.thread
  | .newLine => "\n"
  | .dateTime mFormat => strftime.buf mFormat event.time
  | .filename => event.file
  | .line => toString event.line
  | .tab _ => "\t"
  | .fiberId => toString event.fiberid
  | .threadName => event.threadName
  | .string mString => mString

/-- `s_format_items`: the constructor for a key. -/
def sFormatItems : List Char → Option (String → FormatItem)
  | ['m'] => some fun _ => .message
  | ['p'] => some fun _ => .level
  | ['r'] => some fun _ => .elapse
  | ['c'] => some fun _ => .name
  | ['t'] => some fun _ => .threadId
  | ['n'] => some fun _ => .newLine
  | ['d'] => some newDateTime
  | ['f'] => some fun _ => .filename
  | ['l'] => some fun _ => .line
  | ['T'] => some .tab
  | ['F'] => some fun _ => .fiberId
  | ['N'] => some fun _ => .threadName
  | _ => none

end FormatItem

/-! ### The scanner -/

/-- `LogFormatter`. -/
structure LogFormatter where
  mPattern : String
  mItems : List FormatItem
  mError : Bool
  deriving DecidableEq

namespace LogFormatter

/-- `m_pattern.substr(pos, len)`. -/
def substr (pattern : List Char) (pos len : ℕ) : List Char :=
  (pattern.drop pos).take len

/-- An element of `vec`: `str`, `format` and `type`. -/
structure Tuple where
  str : List Char
  fmt : List Char
  type : ℕ

/-- The variables of the inner loop. -/
structure Inner where
  n : ℕ
  fmtStatus : ℕ
  fmtBegin : ℕ
  str : List Char
  fmt : List Char

/-- The inner loop, from the index `s.n` on; `rest` is the pattern from there on. -/
def inner (pattern : List Char) (i : ℕ) : List Char → Inner → Inner
  | [], s => s
  | c :: rest, s =>
      if s.fmtStatus = 0 ∧ (¬ c.isAlpha ∧ c ≠ '{' ∧ c ≠ '}') then
        { s with str := substr pattern (i + 1) (s.n - i - 1) }
      else if s.fmtStatus = 0 ∧ c = '{' then
        inner pattern i rest { s with
          str := substr pattern (i + 1) (s.n - i - 1)
          fmtStatus := 1
          fmtBegin := s.n
          n := s.n + 1 }
      else if s.fmtStatus = 1 ∧ c = '}' then
        { s with
          fmt := substr pattern (s.fmtBegin + 1) (s.n - s.fmtBegin - 1)
          fmtStatus := 2
          n := s.n + 1 }
      else inner pattern i rest { s with n := s.n + 1 }

/-- The variables of the outer loop, and `m_error`. -/
structure Outer where
  i : ℕ
  nstr : List Char
  vec : List Tuple
  mError : Bool

/-- The pending literal, if there is one, is moved to `vec`. -/
def Outer.flush (s : Outer) : Outer :=
  if s.nstr = [] then s
  else { s with vec := s.vec ++ [⟨s.nstr, [], 0⟩], nstr := [] }

/-- The directive at the index `i`, up to the end of the iteration. -/
def directive (pattern : List Char) (s : Outer) : Outer :=
  let t := inner pattern s.i (pattern.drop (s.i + 1)) ⟨s.i + 1, 0, 0, [], []⟩
  if t.fmtStatus = 0 then
    let str := substr pattern (s.i + 1) (t.n - s.i - 1)
    { s.flush with vec := s.flush.vec ++ [⟨str, t.fmt, 1⟩], i := t.n - 1 }
  else if t.fmtStatus = 1 then
    { s with mError := true, vec := s.vec ++ [⟨"<<pattern_error>>".toList, t.fmt, 0⟩] }
  else
    -- the test is not the one of the first branch: it holds of an empty `nstr`
    let u : Outer :=
      if s.nstr = [] then { s with vec := s.vec ++ [⟨s.nstr, [], 0⟩], nstr := [] } else s
    { u with vec := u.vec ++ [⟨t.str, t.fmt, 1⟩], i := t.n - 1 }

/-- The body of the outer loop at the character `c`, without `++i`. -/
def body (pattern : List Char) (c : Char) (s : Outer) : Outer :=
  if c ≠ '%' then { s with nstr := s.nstr ++ [c] }
  else if pattern[s.i + 1]? = some '%' then { s with nstr := s.nstr ++ ['%'] }
  else directive pattern s

/-- The outer loop; `fuel` bounds the number of iterations. -/
def outer (pattern : List Char) : ℕ → Outer → Outer
  | 0, s => s
  | fuel + 1, s =>
      match pattern[s.i]? with
      | none => s
      | some c =>
          let t := body pattern c s
          outer pattern fuel { t with i := t.i + 1 }

/-- The item of a tuple, and whether it is an error. -/
def item (t : Tuple) : FormatItem × Bool :=
  if t.type = 0 then (.string (String.ofList t.str), false)
  else
    match FormatItem.sFormatItems t.str with
    | none => (.string ("<<error_format %" ++ String.ofList t.str ++ ">>"), true)
    | some new => (new (String.ofList t.fmt), false)

/-- `LogFormatter::init`, called by the constructor. -/
def new (pattern : String) : LogFormatter :=
  let s := (outer pattern.toList pattern.toList.length ⟨0, [], [], false⟩).flush
  { mPattern := pattern
    mItems := s.vec.map fun t => (item t).1
    mError := s.mError || s.vec.any fun t => (item t).2 }

/-- Whether the argument of the directive at the character `c` does not end. -/
def unterminated (pattern : List Char) (c : Char) (s : Outer) : Bool :=
  c = '%' ∧ pattern[s.i + 1]? ≠ some '%' ∧
    (inner pattern s.i (pattern.drop (s.i + 1)) ⟨s.i + 1, 0, 0, [], []⟩).fmtStatus = 1

/-- What the outer loop inserts into `std::cout`. -/
def outerPrints (pattern : List Char) : ℕ → Outer → List String
  | 0, _ => []
  | fuel + 1, s =>
      match pattern[s.i]? with
      | none => []
      | some c =>
          let t := body pattern c s
          (if unterminated pattern c s then
            ["pattern parseerror: ", String.ofList pattern, " - ",
              String.ofList (pattern.drop s.i), "\n"]
          else []) ++ outerPrints pattern fuel { t with i := t.i + 1 }

/-- What the constructor inserts into `std::cout`. -/
def prints (pattern : String) : List String :=
  outerPrints pattern.toList pattern.toList.length ⟨0, [], [], false⟩

/-- `LogFormatter::format`. -/
def format (f : LogFormatter) (strftime : Strftime) (level : LogLevel)
    (event : LogEvent) : String :=
  String.join (f.mItems.map (FormatItem.format strftime level event))

end LogFormatter

end WbServer
