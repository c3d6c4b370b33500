import WbServer.Log.Scan

/-!
# Patterns as sequences of tokens

A pattern is a concatenation of literal chunks, bare directives `%x` and directives with
an argument `%x{arg}`. The scanner collects literal text in `nstr` and moves it to `vec` in
front of a bare directive and at the end of the pattern. In front of a directive with an
argument it does not (`LogFormatter.directive`), so that the text is emitted behind the
directive. `LogFormatter.new_renders_iff` says that this is the only way in which the items
differ from the tokens, and that what is emitted differs besides only where a date does not fit
into its buffer.
-/

namespace WbServer

/-- The text of the time, if the item is a date, has room in the buffer of 64 bytes. -/
def FormatItem.Fits (text : String → ℕ → String) (time : ℕ) : FormatItem → Prop
  | .dateTime mFormat => (text mFormat time).length < 64
  | _ => True

/-- A token of a pattern. -/
inductive Token where
  | literal (text : List Char)
  | bare (x : Char)
  | braced (x : Char) (arg : List Char)

namespace Token

/-- The text of a token. -/
def text : Token → List Char
  | literal text => text
  | bare x => ['%', x]
  | braced x arg => '%' :: x :: '{' :: arg ++ ['}']

/-- The text of a sequence of tokens. -/
def render (ts : List Token) : List Char :=
  ts.flatMap text

/-- The known letters. -/
def Known (x : Char) : Prop :=
  x ∈ ['m', 'p', 'r', 'c', 't', 'n', 'd', 'f', 'l', 'T', 'F', 'N']

/-- A bare directive ends in front of this text: it is empty or starts with a character
that is neither a letter nor a brace. -/
def Ends (cs : List Char) : Prop :=
  ∀ c ∈ cs.head?, ¬ c.isAlpha ∧ c ≠ '{' ∧ c ≠ '}'

/-- The tokens can be told apart in their text. -/
def WellFormed : List Token → Prop
  | [] => True
  | literal text :: ts => '%' ∉ text ∧ WellFormed ts
  | bare x :: ts => Known x ∧ Ends (render ts) ∧ WellFormed ts
  | braced x arg :: ts => Known x ∧ '}' ∉ arg ∧ WellFormed ts

/-- The item of the field with letter `x` and argument `arg`. -/
def field (x : Char) (arg : List Char) : FormatItem :=
  match FormatItem.sFormatItems [x] with
  | some new => new (String.ofList arg)
  | none => .string ""

/-- The item of a literal text, unless it is empty. -/
def literalItems (text : List Char) : List FormatItem :=
  if text = [] then [] else [.string (String.ofList text)]

/-- The items of a sequence of tokens behind the literal text `pending`: adjacent literals
make one item. -/
def items (pending : List Char) : List Token → List FormatItem
  | [] => literalItems pending
  | literal text :: ts => items (pending ++ text) ts
  | bare x :: ts => literalItems pending ++ field x [] :: items [] ts
  | braced x arg :: ts => literalItems pending ++ field x arg :: items [] ts

/-- What a token stands for, with the texts of times of any length. -/
def output (text : String → ℕ → String) (level : LogLevel) (event : LogEvent) : Token → String
  | literal text => String.ofList text
  | bare x => (field x []).format (.ofText text) level event
  | braced x arg => (field x arg).format (.ofText text) level event

/-- The text of the time, if the token is a date, has room in the buffer. -/
def Fits (text : String → ℕ → String) (time : ℕ) : Token → Prop
  | literal _ => True
  | bare x => (field x []).Fits text time
  | braced x arg => (field x arg).Fits text time

/-- No directive with an argument stands behind literal text, with `pending` in front of
the tokens. -/
def Flushed (pending : List Char) : List Token → Prop
  | [] => True
  | literal text :: ts => Flushed (pending ++ text) ts
  | bare _ :: ts => Flushed [] ts
  | braced _ _ :: ts => pending = [] ∧ Flushed [] ts

theorem Known.isAlpha {x : Char} (h : Known x) :
  x.isAlpha = true
  := by
  simp only [Known, List.mem_cons, List.not_mem_nil, or_false] at h
  obtain rfl | rfl | rfl | rfl | rfl | rfl | rfl | rfl | rfl | rfl | rfl | rfl := h <;> decide

theorem Known.ne_of_not_isAlpha {x c : Char} (h : Known x) (hc : c.isAlpha = false) :
  x ≠ c
  := by
  rintro rfl
  simp [h.isAlpha] at hc

/-- The tuple of a directive with a known letter is its field. -/
theorem Known.item {x : Char} (h : Known x) (arg : List Char) :
  LogFormatter.item ⟨[x], arg, 1⟩ = (field x arg, false)
  := by
  simp only [Known, List.mem_cons, List.not_mem_nil, or_false] at h
  obtain rfl | rfl | rfl | rfl | rfl | rfl | rfl | rfl | rfl | rfl | rfl | rfl := h <;> rfl

theorem Known.field_ne {x : Char} (h : Known x) (arg : List Char) (s : String) :
  field x arg ≠ .string s
  := by
  simp only [Known, List.mem_cons, List.not_mem_nil, or_false] at h
  obtain rfl | rfl | rfl | rfl | rfl | rfl | rfl | rfl | rfl | rfl | rfl | rfl := h
  case inr.inr.inr.inr.inr.inr.inl =>
    simp only [field, FormatItem.sFormatItems, FormatItem.newDateTime]
    split <;> simp
  all_goals simp [field, FormatItem.sFormatItems]

end Token

namespace LogFormatter

open Token

/-! ### The chunks of the tokens -/

/-- The chunks of a sequence of tokens. -/
def chunks : List Token → List Chunk
  | [] => []
  | .literal text :: ts => text.map .char ++ chunks ts
  | .bare x :: ts => .bare [x] :: chunks ts
  | .braced x arg :: ts => .braced [x] arg :: chunks ts

/-- The tuples of a sequence of tokens behind the pending literal `nstr`. -/
def tuples (nstr : List Char) : List Token → List Tuple
  | [] => pendingTuples nstr
  | .literal text :: ts => tuples (nstr ++ text) ts
  | .bare x :: ts => pendingTuples nstr ++ ⟨[x], [], 1⟩ :: tuples [] ts
  | .braced x arg :: ts =>
      (if nstr = [] then [⟨[], [], 0⟩] else []) ++ ⟨[x], arg, 1⟩ :: tuples nstr ts

/-- The name of a directive ends where the scanner stops. -/
theorem nameEnds_iff (cs : List Char) :
  NameEnds cs ↔ Ends cs
  := by
  simp only [NameEnds, Ends, NameChar, not_or, and_assoc, and_comm (a := _ ≠ '}')]

/-- Literal text is cut into its characters. -/
theorem Cuts.literal {text rest : List Char} {ks : List Chunk} (htext : '%' ∉ text)
    (h : Cuts rest ks) :
  Cuts (text ++ rest) (text.map .char ++ ks)
  := by
  induction text with
  | nil => apply h
  | cons c text ih =>
      obtain ⟨hc, htext⟩ : c ≠ '%' ∧ '%' ∉ text := by
        simpa [eq_comm, not_or] using htext
      apply Cuts.char hc (ih htext)

/-- The scanner cuts the tokens as they were put together. -/
theorem cuts_chunks {ts : List Token} (h : WellFormed ts) :
  Cuts (render ts) (chunks ts)
  := by
  have hname : ∀ x, Known x → ∀ c ∈ [x], NameChar c := by
    intro x hx c hc
    rw [List.mem_singleton.mp hc]
    exact .inl hx.isAlpha
  induction ts with
  | nil => apply Cuts.nil
  | cons t ts ih =>
      cases t with
      | literal text => apply Cuts.literal h.1 (ih h.2)
      | bare x =>
          obtain ⟨hx, hends, hts⟩ := h
          have hpercent : x ≠ '%' := hx.ne_of_not_isAlpha (by decide)
          apply Cuts.bare (hname x hx) ((nameEnds_iff _).mpr hends) (by simpa using hpercent)
          apply ih hts
      | braced x arg =>
          obtain ⟨hx, harg, hts⟩ := h
          have hrender : render (.braced x arg :: ts) =
              '%' :: ([x] ++ '{' :: (arg ++ '}' :: render ts)) := by
            simp [render, Token.text]
          rw [hrender]
          apply Cuts.braced (hname x hx) harg (ih hts)

/-- Characters in front are added to the pending literal. -/
theorem tuples_literal (text nstr : List Char) (ks : List Chunk) :
  Chunk.tuples nstr (text.map .char ++ ks) = Chunk.tuples (nstr ++ text) ks
  := by
  induction text generalizing nstr with
  | nil => simp
  | cons c text ih => simp [Chunk.tuples, ih]

/-- The tuples of the chunks are those of the tokens. -/
theorem tuples_chunks (ts : List Token) (nstr : List Char) :
  Chunk.tuples nstr (chunks ts) = tuples nstr ts
  := by
  induction ts generalizing nstr with
  | nil => rfl
  | cons t ts ih =>
      cases t with
      | literal text => rw [chunks, tuples_literal, ih, tuples]
      | bare x => rw [chunks, Chunk.tuples, ih, tuples]
      | braced x arg => rw [chunks, Chunk.tuples, ih, tuples]

/-- All arguments of rendered tokens end. -/
theorem chunks_terminated (ts : List Token) :
  (chunks ts).any Chunk.isUnterminated = false
  := by
  induction ts with
  | nil => rfl
  | cons t ts ih =>
      cases t with
      | literal text => simp [chunks, ih, Chunk.isUnterminated]
      | bare x => simp [chunks, ih, Chunk.isUnterminated]
      | braced x arg => simp [chunks, ih, Chunk.isUnterminated]

/-! ### The items -/

theorem literalItems_eq (nstr : List Char) :
  (pendingTuples nstr).map (fun t => (item t).1) = literalItems nstr
  := by
  unfold pendingTuples literalItems
  split <;> rfl

theorem literalItems_filter (nstr : List Char) :
  (literalItems nstr).filter (· ≠ .string "") = literalItems nstr
  := by
  unfold literalItems
  split
  case isTrue => rfl
  case isFalse h =>
    have hne : String.ofList nstr ≠ "" := by
      simpa [← String.toList_inj] using h
    simp [hne]

theorem pendingTuples_noError (nstr : List Char) :
  ((pendingTuples nstr).any fun t => (item t).2) = false
  := by
  unfold pendingTuples
  split <;> rfl

/-- Rendered tokens lead to known items. -/
theorem tuples_noError {ts : List Token} (h : WellFormed ts) (nstr : List Char) :
  ((tuples nstr ts).any fun t => (item t).2) = false
  := by
  induction ts generalizing nstr with
  | nil => apply pendingTuples_noError nstr
  | cons t ts ih =>
      cases t with
      | literal text => apply ih h.2 (nstr ++ text)
      | bare x =>
          simp only [tuples, List.any_append, pendingTuples_noError, List.any_cons, h.1.item,
            ih h.2.2 [], Bool.or_false]
      | braced x arg =>
          simp only [tuples, List.any_append, List.any_cons, h.1.item, ih h.2.2 nstr,
            Bool.or_false]
          split <;> rfl

/-- The item of a known field is not dropped. -/
theorem field_filter {x : Char} (h : Known x) (arg : List Char) (l : List FormatItem) :
  (field x arg :: l).filter (· ≠ .string "") = field x arg :: l.filter (· ≠ .string "")
  := by
  apply List.filter_cons_of_pos
  simpa using h.field_ne arg ""

/-- The items that are not empty literals: those of the tokens, if the tokens are flushed. -/
theorem tuples_items_iff {ts : List Token} (h : WellFormed ts) (nstr : List Char) :
  ((tuples nstr ts).map fun t => (item t).1).filter (· ≠ .string "") = items nstr ts ↔
    Flushed nstr ts
  := by
  induction ts generalizing nstr with
  | nil => simp only [tuples, literalItems_eq, literalItems_filter, items, Flushed]
  | cons t ts ih =>
      cases t with
      | literal text => apply ih h.2 (nstr ++ text)
      | bare x =>
          simp only [tuples, List.map_append, literalItems_eq, List.map_cons, h.1.item,
            List.filter_append, literalItems_filter, items, Flushed, field_filter h.1]
          rw [List.append_cancel_left_eq, List.cons.injEq, ih h.2.2 []]
          simp
      | braced x arg =>
          by_cases hnstr : nstr = []
          · have hempty : item ⟨[], [], 0⟩ = (.string "", false) := rfl
            have htuples : tuples [] (.braced x arg :: ts) =
                ⟨[], [], 0⟩ :: ⟨[x], arg, 1⟩ :: tuples [] ts := rfl
            have hitems : items [] (.braced x arg :: ts) = field x arg :: items [] ts := rfl
            rw [hnstr, htuples, hitems, List.map_cons, List.map_cons, hempty, h.1.item,
              List.filter_cons_of_neg (by simp), field_filter h.1, List.cons.injEq, ih h.2.2 []]
            simp [Flushed]
          · -- the literal stands first among the items of the tokens, the field first in `vec`
            have htuples : tuples nstr (.braced x arg :: ts) =
                ⟨[x], arg, 1⟩ :: tuples nstr ts := by simp [tuples, hnstr]
            have hitems : items nstr (.braced x arg :: ts) =
                .string (String.ofList nstr) :: field x arg :: items [] ts := by
              simp [items, literalItems, hnstr]
            rw [htuples, hitems, List.map_cons, h.1.item, field_filter h.1, List.cons.injEq]
            simp [Flushed, hnstr, h.1.field_ne]

/-! ### What is emitted -/

section Output

variable (strftime : Strftime) (text : String → ℕ → String) (level : LogLevel) (event : LogEvent)

/-- Empty literals emit nothing. -/
theorem join_filter (l : List FormatItem) :
  String.join ((l.filter (· ≠ .string "")).map (FormatItem.format strftime level event)) =
    String.join (l.map (FormatItem.format strftime level event))
  := by
  induction l with
  | nil => rfl
  | cons i l ih =>
      by_cases hi : i = .string ""
      · simp_all [FormatItem.format]
      · simp_all

/-- The items of the tokens emit what the tokens stand for, if all times have room. -/
theorem join_items (ts : List Token) (pending : List Char) :
  String.join ((items pending ts).map (FormatItem.format (.ofText text) level event)) =
    String.ofList pending ++ String.join (ts.map (output text level event))
  := by
  have hliteral : ∀ pending,
      String.join ((literalItems pending).map (FormatItem.format (.ofText text) level event)) =
        String.ofList pending := by
    intro pending
    unfold literalItems
    split
    case isTrue h => simp [h]
    case isFalse => simp [FormatItem.format]
  induction ts generalizing pending with
  | nil => simp [items, hliteral]
  | cons t ts ih =>
      cases t with
      | literal text => simp [items, ih, output, String.append_assoc]
      | bare x => simp [items, hliteral, ih, output]
      | braced x arg => simp [items, hliteral, ih, output]

/-- The dates among the items are those among the tokens. -/
theorem items_fit_iff (time : ℕ) (ts : List Token) (pending : List Char) :
  (∀ i ∈ items pending ts, i.Fits text time) ↔ ∀ t ∈ ts, t.Fits text time
  := by
  have hliteral : ∀ pending, ∀ i ∈ literalItems pending, i.Fits text time := by
    intro pending i hi
    unfold literalItems at hi
    split at hi
    case isTrue => cases hi
    case isFalse =>
      rw [List.mem_singleton.mp hi]
      trivial
  induction ts generalizing pending with
  | nil => simpa [items] using hliteral pending
  | cons t ts ih =>
      cases t with
      | literal chunk =>
          rw [items, List.forall_mem_cons, Fits, true_and]
          apply ih
      | bare x =>
          rw [items, List.forall_mem_append, List.forall_mem_cons, List.forall_mem_cons, Fits,
            and_iff_right (hliteral pending)]
          apply and_congr_right' (ih [])
      | braced x arg =>
          rw [items, List.forall_mem_append, List.forall_mem_cons, List.forall_mem_cons, Fits,
            and_iff_right (hliteral pending)]
          apply and_congr_right' (ih [])

/-- A date that has room is written as it is. -/
theorem format_of_fits {i : FormatItem} (h : i.Fits text event.time)
    (rest : String → ℕ → String) :
  i.format ⟨text, rest⟩ level event = i.format (.ofText text) level event
  := by
  cases i with
  | dateTime mFormat =>
      have hlength : (text mFormat event.time).length < 64 := h
      simp [FormatItem.format, Strftime.buf, Strftime.ofText, hlength]
  | _ => rfl

/-- Where nothing is read of a buffer that is too small, the text is not longer than with
room for all dates, and shorter if there is no room for one. -/
theorem length_format_nil (i : FormatItem) :
  (i.format ⟨text, fun _ _ => ""⟩ level event).length ≤
      (i.format (.ofText text) level event).length ∧
    ((i.format (.ofText text) level event).length ≤
      (i.format ⟨text, fun _ _ => ""⟩ level event).length → i.Fits text event.time)
  := by
  cases i with
  | dateTime mFormat =>
      simp only [FormatItem.format, Strftime.buf_ofText, FormatItem.Fits]
      unfold Strftime.buf
      split
      case isTrue hfits => exact ⟨le_rfl, fun _ => hfits⟩
      case isFalse hlong =>
        rw [String.length_empty]
        exact ⟨Nat.zero_le _, fun h => by omega⟩
  | _ => exact ⟨le_rfl, fun _ => trivial⟩

/-- A buffer without content makes the record shorter unless all dates fit. -/
theorem length_join_format_nil (l : List FormatItem) :
  (String.join (l.map (FormatItem.format ⟨text, fun _ _ => ""⟩ level event))).length ≤
      (String.join (l.map (FormatItem.format (.ofText text) level event))).length ∧
    ((String.join (l.map (FormatItem.format (.ofText text) level event))).length ≤
        (String.join (l.map (FormatItem.format ⟨text, fun _ _ => ""⟩ level event))).length →
      ∀ i ∈ l, i.Fits text event.time)
  := by
  induction l with
  | nil => simp
  | cons i l ih =>
      obtain ⟨hle, hfits⟩ := length_format_nil text level event i
      obtain ⟨hlel, hfitsl⟩ := ih
      simp only [List.map_cons, String.join_cons, String.length_append, List.forall_mem_cons]
      constructor
      · omega
      · intro h
        constructor
        · apply hfits
          omega
        · apply hfitsl
          omega

end Output

/-- The formatter accepts its pattern, has, empty literals aside, the items of the tokens, and
writes for the event what the tokens stand for, whatever a buffer contains that is too small
for a date. -/
structure Renders (f : LogFormatter) (ts : List Token) (text : String → ℕ → String)
    (event : LogEvent) : Prop where
  noError : f.mError = false
  items : f.mItems.filter (· ≠ .string "") = Token.items [] ts
  format : ∀ rest level,
    f.format ⟨text, rest⟩ level event = String.join (ts.map (output text level event))

/-- The formatter of a sequence of tokens renders it if and only if no directive with an
argument stands behind literal text, and every date is shorter than the buffer. -/
theorem new_renders_iff {ts : List Token} (h : WellFormed ts) (text : String → ℕ → String)
    (event : LogEvent) :
  Renders (new (String.ofList (render ts))) ts text event ↔
    Flushed [] ts ∧ ∀ t ∈ ts, t.Fits text event.time
  := by
  have hcuts : Cuts (String.ofList (render ts)).toList (chunks ts) := by
    rw [String.toList_ofList]
    apply cuts_chunks h
  obtain ⟨hitems, herror⟩ := new_cuts hcuts
  have hnoError : (new (String.ofList (render ts))).mError = false := by
    rw [herror, chunks_terminated, tuples_chunks, tuples_noError h, Bool.or_false]
  rw [tuples_chunks] at hitems
  rw [← tuples_items_iff h, ← hitems, ← items_fit_iff text event.time ts []]
  constructor
  · intro hrenders
    use hrenders.items
    -- with nothing in the buffer, a date that does not fit is missing
    apply (length_join_format_nil text .debug event _).2
    have hformat := hrenders.format (fun _ _ => "") .debug
    rw [format, ← join_filter, hrenders.items] at hformat
    rw [hformat, join_items]
    simp
  · rintro ⟨heq, hfits⟩
    refine ⟨hnoError, heq, fun rest level => ?_⟩
    have hmap : (Token.items [] ts).map (FormatItem.format ⟨text, rest⟩ level event) =
        (Token.items [] ts).map (FormatItem.format (.ofText text) level event) :=
      List.map_congr_left fun i hi => format_of_fits text level event (hfits i hi) rest
    rw [format, ← join_filter, heq, hmap, join_items]
    simp

/-- The tokens of `%d{%Y} [%p] %m%n`. -/
def levelMessage : List Token :=
  [.braced 'd' ['%', 'Y'], .literal [' ', '['], .bare 'p', .literal [']', ' '], .bare 'm',
    .bare 'n']

/-- The texts of times in 2023 for the format `%Y`. -/
def year (format : String) (_ : ℕ) : String :=
  if format = "%Y" then "2023" else format

/-- A record of the year 2023. -/
def started : LogEvent :=
  ⟨"root", "test.cc", 31, 0, 7, 0, 1687564800, "main", "started"⟩

theorem new_renders_iff_levelMessage :
  String.ofList (render levelMessage) = "%d{%Y} [%p] %m%n" ∧
    Renders (new (String.ofList (render levelMessage))) levelMessage year started
  := by
  have h : WellFormed levelMessage := by
    simp [levelMessage, WellFormed, Known, Ends, render, Token.text]
  have hfits : ∀ t ∈ levelMessage, t.Fits year started.time := by
    have hyear : (year "%Y" started.time).length < 64 := by decide
    simpa [levelMessage, Fits, field, FormatItem.sFormatItems, FormatItem.newDateTime,
      FormatItem.Fits] using hyear
  exact ⟨by decide, (new_renders_iff h year started).mpr ⟨⟨rfl, trivial⟩, hfits⟩⟩

/-- In `a%d{%Y}` the literal `a` is emitted behind the date. -/
theorem new_misplaces_literal :
  WellFormed [.literal ['a'], .braced 'd' ['%', 'Y']] ∧
    (new "a%d{%Y}").mItems = [.dateTime "%Y", .string "a"] ∧
    ¬ Renders (new "a%d{%Y}") [.literal ['a'], .braced 'd' ['%', 'Y']] year started
  := by
  refine ⟨by simp [WellFormed, Known], by decide, fun h => ?_⟩
  have hitems := h.items
  revert hitems
  decide

end LogFormatter

end WbServer
