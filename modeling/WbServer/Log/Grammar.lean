import WbServer.Log.Pattern

/-!
# The accepted patterns

The chunks of a pattern say whether it has an error: each directive needs a name of one
known letter, and each opening brace a closing one (`LogFormatter.noError_iff`). A pattern
without `%%` that has no error is a sequence of tokens (`LogFormatter.new_accepts_iff`).
-/

namespace WbServer

namespace LogFormatter

open Token

/-- A chunk that makes no error. -/
def Chunk.Accepted : Chunk → Prop
  | char _ => True
  | percent => True
  | bare name => ∃ x, name = [x] ∧ Known x
  | braced name _ => ∃ x, name = [x] ∧ Known x
  | unterminated => False

/-- The names in `s_format_items` are the known letters. -/
theorem item_noError_iff (name arg : List Char) :
  (item ⟨name, arg, 1⟩).2 = false ↔ ∃ x, name = [x] ∧ Known x
  := by
  constructor
  · intro h
    simp only [item, FormatItem.sFormatItems] at h
    split at h
    case isTrue h1 => cases h1
    case isFalse =>
      split at h
      case h_1 => cases h
      case h_2 new hnew =>
        split at hnew
        case h_13 => cases hnew
        all_goals exact ⟨_, rfl, by simp [Known]⟩
  · rintro ⟨x, rfl, hx⟩
    rw [hx.item]

/-- The tuples have no error if and only if the chunks have none. -/
theorem tuples_noError_iff (ks : List Chunk) (nstr : List Char) :
  (ks.any Chunk.isUnterminated || (Chunk.tuples nstr ks).any fun t => (item t).2) = false ↔
    ∀ k ∈ ks, k.Accepted
  := by
  rw [Bool.or_eq_false_iff]
  induction ks generalizing nstr with
  | nil => simp [Chunk.tuples, pendingTuples_noError]
  | cons k ks ih =>
      rw [List.forall_mem_cons, List.any_cons]
      cases k with
      | char c =>
          rw [← ih (nstr ++ [c])]
          simp [Chunk.tuples, Chunk.isUnterminated, Chunk.Accepted]
      | percent =>
          rw [← ih (nstr ++ ['%'])]
          simp [Chunk.tuples, Chunk.isUnterminated, Chunk.Accepted]
      | bare name =>
          rw [← ih [], Chunk.Accepted, ← item_noError_iff name []]
          simp only [Chunk.tuples, Chunk.isUnterminated, List.any_append, List.any_cons,
            pendingTuples_noError, Bool.false_or, Bool.or_eq_false_iff]
          tauto
      | braced name arg =>
          have hempty : ((if nstr = [] then [⟨[], [], 0⟩] else [] : List Tuple).any
              fun t => (item t).2) = false := by
            split <;> rfl
          rw [← ih nstr, Chunk.Accepted, ← item_noError_iff name arg]
          simp only [Chunk.tuples, Chunk.isUnterminated, List.any_append, List.any_cons,
            hempty, Bool.false_or, Bool.or_eq_false_iff]
          tauto
      | unterminated => simp [Chunk.isUnterminated, Chunk.Accepted]

/-- The formatter accepts its pattern if and only if it accepts each chunk. -/
theorem noError_iff {pattern : String} {ks : List Chunk} (h : Cuts pattern.toList ks) :
  (new pattern).mError = false ↔ ∀ k ∈ ks, k.Accepted
  := by
  rw [(new_cuts h).2, tuples_noError_iff]

/-- Accepted chunks of a text without `%%` are those of a sequence of tokens. -/
theorem Cuts.exists_tokens {cs : List Char} {ks : List Chunk} (h : Cuts cs ks)
    (hcs : ¬ ['%', '%'] <:+: cs) (hks : ∀ k ∈ ks, k.Accepted) :
  ∃ ts, WellFormed ts ∧ render ts = cs
  := by
  induction h with
  | nil => exact ⟨[], trivial, rfl⟩
  | @char c rest ks hc _ ih =>
      obtain ⟨-, hks⟩ := List.forall_mem_cons.mp hks
      obtain ⟨ts, hts, rfl⟩ := ih (fun h => hcs (h.trans (List.suffix_cons c _).isInfix)) hks
      use .literal [c] :: ts
      exact ⟨⟨by simpa using Ne.symm hc, hts⟩, rfl⟩
  | @percent rest ks _ _ => exact absurd ⟨[], rest, rfl⟩ hcs
  | @bare name rest ks hname hends hpercent _ ih =>
      obtain ⟨⟨x, rfl, hx⟩, hrest⟩ := List.forall_mem_cons.mp hks
      have hsuffix : rest <:+ '%' :: ([x] ++ rest) := ⟨['%', x], rfl⟩
      obtain ⟨ts, hts, rfl⟩ := ih (fun h => hcs (h.trans hsuffix.isInfix)) hrest
      use .bare x :: ts
      exact ⟨⟨hx, (nameEnds_iff _).mp hends, hts⟩, rfl⟩
  | @braced name arg rest ks hname harg _ ih =>
      obtain ⟨⟨x, rfl, hx⟩, hrest⟩ := List.forall_mem_cons.mp hks
      have hsuffix : rest <:+ '%' :: ([x] ++ '{' :: (arg ++ '}' :: rest)) :=
        ⟨'%' :: x :: '{' :: (arg ++ ['}']), by simp⟩
      obtain ⟨ts, hts, rfl⟩ := ih (fun h => hcs (h.trans hsuffix.isInfix)) hrest
      use .braced x arg :: ts
      exact ⟨⟨hx, harg, hts⟩, by simp [render, Token.text]⟩
  | unterminated => exact (List.forall_mem_cons.mp hks).1.elim

/-- A pattern without `%%` is accepted if and only if it is a sequence of tokens. -/
theorem new_accepts_iff {pattern : String} (h : ¬ ['%', '%'] <:+: pattern.toList) :
  (new pattern).mError = false ↔ ∃ ts, WellFormed ts ∧ render ts = pattern.toList
  := by
  obtain ⟨ks, hks⟩ := exists_cuts pattern.toList
  constructor
  · intro herror
    apply hks.exists_tokens h ((noError_iff hks).mp herror)
  · rintro ⟨ts, hts, hrender⟩
    have hcuts : Cuts pattern.toList (chunks ts) := hrender ▸ cuts_chunks hts
    rw [(new_cuts hcuts).2, chunks_terminated, tuples_chunks, tuples_noError hts, Bool.or_false]

theorem new_accepts_iff_date :
  ¬ ['%', '%'] <:+: "%d{%Y} %m".toList ∧ (new "%d{%Y} %m").mError = false ∧
    ∃ ts, WellFormed ts ∧ render ts = "%d{%Y} %m".toList
  := by
  have h : ¬ ['%', '%'] <:+: "%d{%Y} %m".toList := by decide
  have herror : (new "%d{%Y} %m").mError = false := by decide
  exact ⟨h, herror, (new_accepts_iff h).mp herror⟩

end LogFormatter

end WbServer
