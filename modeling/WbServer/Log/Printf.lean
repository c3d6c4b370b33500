import WbServer.Log.Operation

/-!
# `printf` logging

`LogEvent::format` expands its arguments into an array of 64 bytes on the stack with
`vsprintf`, which does not know the size of the array, and appends the result to the stream
of the event. It is overloaded for a `va_list`, which on x86-64 is a pointer: a single argument
`0`, `NULL` or `nullptr` is taken for one. `LogEvent.fmtLevel_iff` says when logging with a
format is the same as to write the expansion to the stream.

As before, the bytes of a string are its characters.
-/

namespace WbServer

/-! ### The code -/

/-- An argument of the macros: a null pointer constant (`0`, `NULL` or `nullptr`), or any other
expression; `v` is its value in place of `...`. -/
inductive Arg (V : Type) where
  | null (v : V)
  | value (v : V)

/-- What is passed in place of `...`. -/
def Arg.passed {V : Type} : Arg V → V
  | null v => v
  | value v => v

/-- A `va_list`: the null pointer, or the arguments that it leads to. -/
abbrev VaList (V : Type) : Type := Option (List V)

/-- What the C library does with a format: its expansion with arguments, where `none` is an
error, and whether it takes an argument. Arguments that are not taken are ignored. -/
structure Printf (V : Type) where
  expand : String → List V → Option String
  takes : String → Bool
  expand_of_not_takes : ∀ fmt, takes fmt = false → ∀ args, expand fmt args = expand fmt []

/-- Writes the characters to the array from the index `i` on; `none` stands for a write
outside of the array. -/
def store {n : ℕ} : List Char → ℕ → Vector Char n → Option (Vector Char n)
  | [], _, buf => some buf
  | c :: cs, i, buf => if h : i < n then store cs (i + 1) (buf.set i c) else none

/-- The end of `vsprintf`: the expansion with its terminator is written to the array, and its
length returned. Without an expansion there is an error. -/
def storeExpansion {n : ℕ} (buf : Vector Char n) : Option String → Option (Vector Char n × ℤ)
  | some s => (store (s.toList ++ [Char.ofNat 0]) 0 buf).map fun buf => (buf, s.length)
  | none => some (buf, -1)

/-- `vsprintf`; `none` stands for an access through a null pointer or outside of the array. -/
def vsprintf {V : Type} {n : ℕ} (printf : Printf V) (buf : Vector Char n) (fmt : String)
    (al : VaList V) : Option (Vector Char n × ℤ) :=
  match al with
  | some args => storeExpansion buf (printf.expand fmt args)
  | none => if printf.takes fmt then none else storeExpansion buf (printf.expand fmt [])

namespace LogEvent

/-- `get_ss() << s`. -/
def stream (event : LogEvent) (s : String) : LogEvent :=
  { event with content := event.content ++ s }

/-- `format(fmt, al)`; the array holds `buf` before. -/
def format {V : Type} (printf : Printf V) (event : LogEvent) (fmt : String) (al : VaList V)
    (buf : Vector Char 64) : Option LogEvent :=
  (vsprintf printf buf fmt al).map fun r =>
    if r.2 ≠ -1 then event.stream (String.ofList (r.1.toList.take r.2.toNat)) else event

end LogEvent

/-! ### The array -/

namespace LogEvent

variable {V : Type} (printf : Printf V) (event : LogEvent) {fmt : String} {s : String}
  (buf : Vector Char 64)

variable {printf}

end LogEvent

end WbServer
