import Mathlib.Algebra.BigOperators.Group.List.Basic
import WbServer.Log.Grammar

/-!
# Escaped text

In front of a `%` a `%` is literal text, but the scanner goes on at the second one, which
starts a directive if it is not itself in front of a `%`. So a run of `%` always ends with a
directive. A directive loses its letter: `LogFormatter.escape_faithful_iff` counts the known
letters of the pattern and of what is emitted.
-/

namespace WbServer

namespace LogFormatter

open Token

/-- The text with each `%` doubled. -/
def escape (text : List Char) : List Char :=
  text.flatMap fun c => if c = '%' then ['%', '%'] else [c]

instance : DecidablePred Known :=
  fun x => inferInstanceAs
    (Decidable (x ∈ ['m', 'p', 'r', 'c', 't', 'n', 'd', 'f', 'l', 'T', 'F', 'N']))

/-- The number of known letters. -/
def letters (cs : List Char) : ℕ :=
  cs.countP Known

theorem letters_append (cs ds : List Char) :
  letters (cs ++ ds) = letters cs + letters ds
  := List.countP_append

/-- Escaping adds no known letters. -/
theorem letters_escape (text : List Char) :
  letters (escape text) = letters text
  := by
  have hpercent : letters ['%', '%'] = letters ['%'] := by decide
  induction text with
  | nil => rfl
  | cons c text ih =>
      have hcons : letters (c :: text) = letters [c] + letters text := letters_append [c] text
      rw [hcons, ← ih, escape, List.flatMap_cons, letters_append]
      by_cases hc : c = '%'
      · rw [if_pos hc, hc, hpercent]
        rfl
      · rw [if_neg hc]
        rfl

/-- Text without percent signs is its own escape. -/
theorem escape_of_notMem {text : List Char} (h : '%' ∉ text) :
  escape text = text
  := by
  induction text with
  | nil => rfl
  | cons c text ih =>
      obtain ⟨hc, htext⟩ : c ≠ '%' ∧ '%' ∉ text := by
        simpa [eq_comm, not_or] using h
      rw [escape, List.flatMap_cons, if_neg hc, ← escape, ih htext, List.singleton_append]

/-- Escaping neither adds the first percent sign nor removes the last one. -/
theorem mem_escape_iff (text : List Char) :
  '%' ∈ escape text ↔ '%' ∈ text
  := by
  constructor
  · intro h
    by_contra htext
    rw [escape_of_notMem htext] at h
    exact htext h
  · intro h
    exact List.mem_flatMap.mpr ⟨'%', h, by simp⟩

/-! ### The letters that are emitted -/

namespace Chunk

/-- The text that a chunk adds to the pending literal. -/
def literal : Chunk → List Char
  | char c => [c]
  | percent => ['%']
  | bare _ => []
  | braced _ _ => []
  | unterminated => []

/-- A chunk starts a directive. -/
def isDirective : Chunk → Bool
  | char _ => false
  | percent => false
  | bare _ => true
  | braced _ _ => true
  | unterminated => true

end Chunk

/-- An event without text. -/
def blank : LogEvent :=
  { loggerName := "", file := "", line := 0, elapse := 0, thread := 0, fiberid := 0, time := 0,
    threadName := "", content := "" }

/-- The number of known letters an item emits for the blank event. -/
def emitted (i : FormatItem) : ℕ :=
  letters (i.format (.ofText fun _ _ => "") .debug blank).toList

/-- A known field emits no known letters for the blank event. -/
theorem emitted_field {x : Char} (h : Known x) (arg : List Char) :
  emitted (field x arg) = 0
  := by
  simp only [Known, List.mem_cons, List.not_mem_nil, or_false] at h
  obtain rfl | rfl | rfl | rfl | rfl | rfl | rfl | rfl | rfl | rfl | rfl | rfl := h
  case inr.inr.inr.inr.inr.inr.inl =>
    simp only [field, FormatItem.sFormatItems, FormatItem.newDateTime]
    split <;> rfl
  all_goals
    simp only [field, FormatItem.sFormatItems, emitted, FormatItem.format]
    decide

/-- The letters of a record are those of its items. -/
theorem emitted_join (l : List FormatItem) :
  letters (String.join (l.map (FormatItem.format (.ofText fun _ _ => "") .debug blank))).toList =
    (l.map emitted).sum
  := by
  induction l with
  | nil => rfl
  | cons i l ih =>
      rw [List.map_cons, String.join_cons, String.toList_append, letters_append, ih,
        List.map_cons, List.sum_cons, emitted]

theorem emitted_pending (nstr : List Char) :
  ((pendingTuples nstr).map fun t => emitted (item t).1).sum = letters nstr
  := by
  unfold pendingTuples
  split
  case isTrue h =>
    rw [h]
    rfl
  case isFalse => simp [item, emitted, FormatItem.format]

/-- The known letters that are emitted are those of the literal text. -/
theorem emitted_tuples {ks : List Chunk} (h : ∀ k ∈ ks, k.Accepted) (nstr : List Char) :
  ((Chunk.tuples nstr ks).map fun t => emitted (item t).1).sum =
    letters nstr + letters (ks.flatMap Chunk.literal)
  := by
  induction ks generalizing nstr with
  | nil => simp [Chunk.tuples, emitted_pending, letters]
  | cons k ks ih =>
      obtain ⟨hk, hks⟩ := List.forall_mem_cons.mp h
      cases k with
      | char c =>
          simp only [Chunk.tuples, ih hks, List.flatMap_cons, letters_append, Chunk.literal,
            Nat.add_assoc]
      | percent =>
          simp only [Chunk.tuples, ih hks, List.flatMap_cons, letters_append, Chunk.literal,
            Nat.add_assoc]
      | bare name =>
          obtain ⟨x, rfl, hx⟩ := hk
          have hnil : letters [] = 0 := rfl
          simp only [Chunk.tuples, List.map_append, List.map_cons, List.sum_append,
            List.sum_cons, emitted_pending, hx.item, emitted_field hx, ih hks,
            List.flatMap_cons, Chunk.literal, List.nil_append, hnil, Nat.zero_add]
      | braced name arg =>
          obtain ⟨x, rfl, hx⟩ := hk
          have hempty : ((if nstr = [] then [⟨[], [], 0⟩] else [] : List Tuple).map
              fun t => emitted (item t).1).sum = 0 := by
            split <;> rfl
          simp only [Chunk.tuples, List.map_append, List.map_cons, List.sum_append,
            List.sum_cons, hempty, hx.item, emitted_field hx, ih hks,
            List.flatMap_cons, Chunk.literal, List.nil_append, Nat.zero_add]
      | unterminated => exact hk.elim

/-- A directive has a known letter that is not emitted. -/
theorem Cuts.letters_le {cs : List Char} {ks : List Chunk} (h : Cuts cs ks)
    (hks : ∀ k ∈ ks, k.Accepted) :
  letters (ks.flatMap Chunk.literal) + ks.countP Chunk.isDirective ≤ letters cs
  := by
  have hone : ∀ x, Known x → ∀ rest, letters (x :: rest) = letters rest + 1 := by
    intro x hx rest
    exact List.countP_cons_of_pos (by simpa using hx)
  have hcons : ∀ c rest, letters (c :: rest) = letters [c] + letters rest :=
    fun c rest => letters_append [c] rest
  induction h with
  | nil => simp
  | @char c rest ks _ _ ih =>
      have ih' := ih (List.forall_mem_cons.mp hks).2
      rw [List.flatMap_cons, Chunk.literal, letters_append, hcons c rest]
      simp only [List.countP_cons, Chunk.isDirective, Bool.false_eq_true, if_false]
      omega
  | @percent rest ks _ ih =>
      have ih' := ih (List.forall_mem_cons.mp hks).2
      have hpercent : letters ['%'] = 0 := by decide
      rw [List.flatMap_cons, Chunk.literal, letters_append, hcons '%' ('%' :: rest), hpercent]
      simp only [List.countP_cons, Chunk.isDirective, Bool.false_eq_true, if_false]
      omega
  | @bare name rest ks _ _ _ _ ih =>
      obtain ⟨⟨x, rfl, hx⟩, hrest⟩ := List.forall_mem_cons.mp hks
      have ih' := ih hrest
      rw [hcons '%', List.singleton_append, hone x hx]
      simp only [List.flatMap_cons, Chunk.literal, List.nil_append, List.countP_cons,
        Chunk.isDirective, if_true]
      omega
  | @braced name arg rest ks _ _ _ ih =>
      obtain ⟨⟨x, rfl, hx⟩, hrest⟩ := List.forall_mem_cons.mp hks
      have ih' := ih hrest
      rw [hcons '%', List.singleton_append, hone x hx, hcons '{', letters_append, hcons '}']
      simp only [List.flatMap_cons, Chunk.literal, List.nil_append, List.countP_cons,
        Chunk.isDirective, if_true]
      omega
  | unterminated => exact (List.forall_mem_cons.mp hks).1.elim

/-- A text without directives has no `%`: the last one of a run starts a directive. -/
theorem Cuts.notMem {cs : List Char} {ks : List Chunk} (h : Cuts cs ks)
    (hks : ∀ k ∈ ks, k.isDirective = false) :
  '%' ∉ cs
  := by
  induction h with
  | nil => simp
  | char hc _ ih =>
      rw [List.mem_cons, not_or]
      exact ⟨Ne.symm hc, ih (List.forall_mem_cons.mp hks).2⟩
  | percent _ ih => exact absurd List.mem_cons_self (ih (List.forall_mem_cons.mp hks).2)
  | bare => exact absurd (List.forall_mem_cons.mp hks).1 (by simp [Chunk.isDirective])
  | braced => exact absurd (List.forall_mem_cons.mp hks).1 (by simp [Chunk.isDirective])
  | unterminated => exact absurd (List.forall_mem_cons.mp hks).1 (by simp [Chunk.isDirective])

/-- The formatter accepts the pattern and formats each event to `text`. -/
def Faithful (f : LogFormatter) (text : String) : Prop :=
  f.mError = false ∧ ∀ strftime level event, f.format strftime level event = text

/-- An accepted pattern that formats each event to a text with as many known letters has no
directive, and so no `%`. -/
theorem Faithful.notMem {pattern text : String} (h : Faithful (new pattern) text)
    (hletters : letters pattern.toList = letters text.toList) :
  '%' ∉ pattern.toList
  := by
  obtain ⟨ks, hks⟩ := exists_cuts pattern.toList
  have haccepted := (noError_iff hks).mp h.1
  have hformat : letters text.toList = letters (ks.flatMap Chunk.literal) := by
    have htuples := emitted_tuples haccepted []
    rw [← h.2 (.ofText fun _ _ => "") .debug blank, format, emitted_join, (new_cuts hks).1,
      List.map_map]
    exact htuples.trans (Nat.zero_add _)
  have hcount := hks.letters_le haccepted
  have hzero : ks.countP Chunk.isDirective = 0 := by omega
  apply hks.notMem
  simpa using hzero

/-- Escaping a text is faithful if and only if there is nothing to escape. -/
theorem escape_faithful_iff (text : String) :
  Faithful (new (String.ofList (escape text.toList))) text ↔ '%' ∉ text.toList
  := by
  constructor
  · intro h
    rw [← mem_escape_iff]
    simpa using h.notMem (by rw [String.toList_ofList, letters_escape])
  · intro htext
    have hcuts : Cuts text.toList (text.toList.map .char) := by
      simpa using Cuts.literal htext Cuts.nil
    have htuples : Chunk.tuples [] (text.toList.map .char) = pendingTuples text.toList := by
      simpa [Chunk.tuples] using tuples_literal text.toList [] []
    rw [escape_of_notMem htext, String.ofList_toList]
    constructor
    · rw [noError_iff hcuts]
      intro k hk
      obtain ⟨c, -, rfl⟩ := List.mem_map.mp hk
      trivial
    · intro strftime level event
      rw [format, (new_cuts hcuts).1, htuples, literalItems_eq, literalItems]
      split
      case isTrue h => exact (String.toList_eq_nil_iff.mp h).symm
      case isFalse => simp [FormatItem.format]

/-- The pattern for `%` is an error, and the one for `%m` emits the message. -/
theorem escape_misses_percent :
  (new (String.ofList (escape "%".toList))).mError = true ∧
    (new (String.ofList (escape "%m".toList))).mItems = [.string "%", .message] ∧
    ¬ Faithful (new (String.ofList (escape "%".toList))) "%"
  := by
  have herror : (new (String.ofList (escape "%".toList))).mError = true := by decide
  refine ⟨herror, by decide, fun h => ?_⟩
  exact absurd (h.1.symm.trans herror) Bool.false_ne_true

end LogFormatter

end WbServer
