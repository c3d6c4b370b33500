import Mathlib.Data.List.TakeWhile
import WbServer.Log.Format

/-!
# The scan of a pattern

The scanner cuts a pattern into chunks. At a `%` in front of another `%` it takes the first
one for literal text, and goes on at the second one. At any other `%` it takes the letters
and closing braces that follow for the name of a directive. If an opening brace comes next,
the argument reaches to the first closing brace; without one the `%` is an error, and the
scanner goes on behind it.

Every pattern is cut in this way (`LogFormatter.exists_cuts`), and the chunks determine what
`init` collects (`LogFormatter.outer_cuts`) and so the items and the error of the formatter
(`LogFormatter.new_cuts`).
-/

namespace WbServer

namespace LogFormatter

/-! ### Chunks -/

/-- What the scanner makes of a part of the pattern. -/
inductive Chunk where
  | char (c : Char)
  | percent
  | bare (name : List Char)
  | braced (name arg : List Char)
  | unterminated

/-- The characters of a name, which the inner loop passes over. -/
def NameChar (c : Char) : Prop :=
  c.isAlpha = true ∨ c = '}'

instance : DecidablePred NameChar :=
  fun c => inferInstanceAs (Decidable (c.isAlpha = true ∨ c = '}'))

/-- A name ends in front of this text, and has no argument. -/
def NameEnds (cs : List Char) : Prop :=
  ∀ c ∈ cs.head?, ¬ NameChar c ∧ c ≠ '{'

/-- The pattern is cut into these chunks. -/
inductive Cuts : List Char → List Chunk → Prop where
  | nil : Cuts [] []
  | char {c : Char} {rest : List Char} {ks : List Chunk} (hc : c ≠ '%') (h : Cuts rest ks) :
      Cuts (c :: rest) (.char c :: ks)
  | percent {rest : List Char} {ks : List Chunk} (h : Cuts ('%' :: rest) ks) :
      Cuts ('%' :: '%' :: rest) (.percent :: ks)
  | bare {name rest : List Char} {ks : List Chunk} (hname : ∀ c ∈ name, NameChar c)
      (hends : NameEnds rest) (hpercent : (name ++ rest).head? ≠ some '%') (h : Cuts rest ks) :
      Cuts ('%' :: (name ++ rest)) (.bare name :: ks)
  | braced {name arg rest : List Char} {ks : List Chunk} (hname : ∀ c ∈ name, NameChar c)
      (harg : '}' ∉ arg) (h : Cuts rest ks) :
      Cuts ('%' :: (name ++ '{' :: (arg ++ '}' :: rest))) (.braced name arg :: ks)
  | unterminated {name rest : List Char} {ks : List Chunk} (hname : ∀ c ∈ name, NameChar c)
      (hrest : '}' ∉ rest) (h : Cuts (name ++ '{' :: rest) ks) :
      Cuts ('%' :: (name ++ '{' :: rest)) (.unterminated :: ks)

/-- A pattern starts with a name, behind which it ends or goes on with another character. -/
theorem exists_name (cs : List Char) :
  ∃ name rest, cs = name ++ rest ∧ (∀ c ∈ name, NameChar c) ∧
    (NameEnds rest ∨ ∃ rest', rest = '{' :: rest')
  := by
  use cs.takeWhile NameChar, cs.dropWhile NameChar
  refine ⟨List.takeWhile_append_dropWhile.symm, ?_, ?_⟩
  · intro c hc
    simpa using List.mem_takeWhile_imp hc
  · have hhead := List.head?_dropWhile_not (NameChar ·) cs
    cases hdrop : cs.dropWhile NameChar with
    | nil => exact .inl (by simp [NameEnds])
    | cons c rest =>
        rw [hdrop] at hhead
        have hc : ¬ NameChar c := by simpa using hhead
        by_cases hopen : c = '{'
        · exact .inr ⟨rest, by rw [hopen]⟩
        · left
          rintro _ ⟨⟩
          exact ⟨hc, hopen⟩

/-- Every pattern is cut into chunks. -/
theorem exists_cuts (cs : List Char) :
  ∃ ks, Cuts cs ks
  := by
  induction hn : cs.length using Nat.strong_induction_on generalizing cs with
  | _ n ih =>
      cases cs with
      | nil => exact ⟨_, .nil⟩
      | cons c cs =>
          rw [List.length_cons] at hn
          have hshort : ∀ cs' : List Char, cs'.length ≤ cs.length → ∃ ks, Cuts cs' ks :=
            fun cs' hcs' => ih cs'.length (by omega) cs' rfl
          by_cases hc : c = '%'
          · subst hc
            by_cases hpercent : cs.head? = some '%'
            · obtain ⟨rest, rfl⟩ := List.head?_eq_some_iff.mp hpercent
              obtain ⟨ks, hks⟩ := hshort ('%' :: rest) le_rfl
              exact ⟨_, .percent hks⟩
            · obtain ⟨name, rest, rfl, hname, hends | ⟨rest, rfl⟩⟩ := exists_name cs
              · obtain ⟨ks, hks⟩ := hshort rest (by simp)
                exact ⟨_, .bare hname hends hpercent hks⟩
              · by_cases hclose : '}' ∈ rest
                · obtain ⟨arg, rest, rfl, harg⟩ := List.eq_append_cons_of_mem hclose
                  obtain ⟨ks, hks⟩ := hshort rest (by simp; omega)
                  exact ⟨_, .braced hname harg hks⟩
                · obtain ⟨ks, hks⟩ := hshort (name ++ '{' :: rest) le_rfl
                  exact ⟨_, .unterminated hname hclose hks⟩
          · obtain ⟨ks, hks⟩ := hshort cs le_rfl
            exact ⟨_, .char hc hks⟩

/-! ### The inner loop -/

/-- The inner loop passes over the characters of a name. -/
theorem inner_name (pattern : List Char) (i : ℕ) {name : List Char}
    (hname : ∀ c ∈ name, NameChar c) (rest : List Char) (n b : ℕ) (str fmt : List Char) :
  inner pattern i (name ++ rest) ⟨n, 0, b, str, fmt⟩ =
    inner pattern i rest ⟨n + name.length, 0, b, str, fmt⟩
  := by
  induction name generalizing n with
  | nil => rfl
  | cons c name ih =>
      obtain ⟨hc, hname⟩ := List.forall_mem_cons.mp hname
      have hopen : c ≠ '{' := by
        rintro rfl
        exact absurd hc (by decide)
      have hbreak : ¬ (¬ c.isAlpha = true ∧ c ≠ '{' ∧ c ≠ '}') := by
        rintro ⟨halpha, -, hclose⟩
        obtain hc | hc := hc
        · apply halpha hc
        · apply hclose hc
      have hlength : n + 1 + name.length = n + (c :: name).length := by
        rw [List.length_cons]
        omega
      rw [List.cons_append, inner, if_neg (fun h => hbreak h.2), if_neg (fun h => hopen h.2),
        if_neg (by simp), ih hname, hlength]

/-- Without an argument the inner loop stands at the index behind the name. -/
theorem inner_bare (pattern : List Char) (i : ℕ) {name rest : List Char}
    (hname : ∀ c ∈ name, NameChar c) (hends : NameEnds rest) :
  let t := inner pattern i (name ++ rest) ⟨i + 1, 0, 0, [], []⟩
  t.n = i + 1 + name.length ∧ t.fmtStatus = 0 ∧ t.fmt = []
  := by
  rw [inner_name pattern i hname]
  cases rest with
  | nil => simp [inner]
  | cons c rest =>
      obtain ⟨hc, hopen⟩ := hends c rfl
      obtain ⟨halpha, hclose⟩ := not_or.mp hc
      simp [inner, halpha, hopen, hclose]

/-- Inside of the braces the inner loop runs to the closing one. -/
theorem inner_arg (pattern : List Char) (i : ℕ) {arg : List Char} (harg : '}' ∉ arg)
    (rest : List Char) (n b : ℕ) (str fmt : List Char) :
  inner pattern i (arg ++ '}' :: rest) ⟨n, 1, b, str, fmt⟩ =
    ⟨n + arg.length + 1, 2, b, str, substr pattern (b + 1) (n + arg.length - b - 1)⟩
  := by
  induction arg generalizing n with
  | nil => simp [inner]
  | cons c arg ih =>
      obtain ⟨hc, harg⟩ : c ≠ '}' ∧ '}' ∉ arg := by
        simpa [eq_comm, not_or] using harg
      have hlength : n + 1 + arg.length = n + (c :: arg).length := by
        simp only [List.length_cons]
        omega
      rw [List.cons_append, inner, if_neg (by simp), if_neg (by simp), if_neg (by simp [hc]),
        ih harg, hlength]

/-- Without a closing brace the inner loop runs to the end of the pattern. -/
theorem inner_open (pattern : List Char) (i : ℕ) {rest : List Char} (hrest : '}' ∉ rest)
    (n b : ℕ) (str fmt : List Char) :
  inner pattern i rest ⟨n, 1, b, str, fmt⟩ = ⟨n + rest.length, 1, b, str, fmt⟩
  := by
  induction rest generalizing n with
  | nil => rfl
  | cons c rest ih =>
      obtain ⟨hc, hrest⟩ : c ≠ '}' ∧ '}' ∉ rest := by
        simpa [eq_comm, not_or] using hrest
      have hlength : n + 1 + rest.length = n + (c :: rest).length := by
        simp only [List.length_cons]
        omega
      rw [inner, if_neg (by simp), if_neg (by simp), if_neg (by simp [hc]), ih hrest, hlength]

/-- Behind the opening brace the inner loop has the name. -/
theorem inner_brace (pattern : List Char) (i : ℕ) {name : List Char}
    (hname : ∀ c ∈ name, NameChar c) (rest : List Char) :
  inner pattern i (name ++ '{' :: rest) ⟨i + 1, 0, 0, [], []⟩ =
    inner pattern i rest
      ⟨i + name.length + 2, 1, i + name.length + 1, substr pattern (i + 1) name.length, []⟩
  := by
  have hlength : i + 1 + name.length - i - 1 = name.length := by omega
  have hn : i + 1 + name.length = i + name.length + 1 := by omega
  rw [inner_name pattern i hname, inner, if_neg (by simp), if_pos (by simp), hlength, hn]

/-! ### The outer loop -/

/-- The tuple of the pending literal, if there is one. -/
def pendingTuples (nstr : List Char) : List Tuple :=
  if nstr = [] then [] else [⟨nstr, [], 0⟩]

theorem flush_eq (s : Outer) :
  s.flush = { s with vec := s.vec ++ pendingTuples s.nstr, nstr := [] }
  := by
  obtain ⟨i, nstr, vec, mError⟩ := s
  simp only [Outer.flush, pendingTuples]
  split <;> simp_all

/-- The part of a pattern behind `pre` and a `%`. -/
theorem substr_name (pre name rest : List Char) :
  substr (pre ++ '%' :: (name ++ rest)) (pre.length + 1) name.length = name
  := by
  simp [substr]

/-- The iteration at a directive without an argument. -/
theorem directive_bare (pre : List Char) {name rest : List Char} (hname : ∀ c ∈ name, NameChar c)
    (hends : NameEnds rest) (nstr : List Char) (vec : List Tuple) (e : Bool) :
  directive (pre ++ '%' :: (name ++ rest)) ⟨pre.length, nstr, vec, e⟩ =
    ⟨pre.length + name.length, [], vec ++ pendingTuples nstr ++ [⟨name, [], 1⟩], e⟩
  := by
  have hdrop : (pre ++ '%' :: (name ++ rest)).drop (pre.length + 1) = name ++ rest := by
    simp
  obtain ⟨hn, hstatus, hfmt⟩ :=
    inner_bare (pre ++ '%' :: (name ++ rest)) pre.length hname hends
  have hlength : pre.length + 1 + name.length - pre.length - 1 = name.length := by omega
  have hindex : pre.length + 1 + name.length - 1 = pre.length + name.length := by omega
  simp only [directive, hdrop, hn, hstatus, hfmt, hlength, hindex, substr_name, flush_eq, if_true]

/-- The iteration at a directive with an argument. -/
theorem directive_braced (pre : List Char) {name arg : List Char}
    (hname : ∀ c ∈ name, NameChar c) (harg : '}' ∉ arg) (rest nstr : List Char)
    (vec : List Tuple) (e : Bool) :
  directive (pre ++ '%' :: (name ++ '{' :: (arg ++ '}' :: rest))) ⟨pre.length, nstr, vec, e⟩ =
    ⟨pre.length + name.length + arg.length + 2, nstr,
      vec ++ (if nstr = [] then [⟨[], [], 0⟩] else []) ++ [⟨name, arg, 1⟩], e⟩
  := by
  set pattern := pre ++ '%' :: (name ++ '{' :: (arg ++ '}' :: rest)) with hpattern
  have hdrop : pattern.drop (pre.length + 1) = name ++ '{' :: (arg ++ '}' :: rest) := by
    simp [hpattern]
  have hfmt : substr pattern (pre.length + name.length + 1 + 1) arg.length = arg := by
    have hsplit : pattern = (pre ++ '%' :: (name ++ ['{'])) ++ (arg ++ '}' :: rest) := by
      simp [hpattern]
    have hpre : (pre ++ '%' :: (name ++ ['{'])).length = pre.length + name.length + 1 + 1 := by
      simp
      omega
    rw [hsplit, ← hpre, substr, List.drop_left, List.take_left]
  have hlength : pre.length + name.length + 2 + arg.length - (pre.length + name.length + 1) - 1 =
      arg.length := by omega
  have hindex : pre.length + name.length + 2 + arg.length + 1 - 1 =
      pre.length + name.length + arg.length + 2 := by omega
  have hstr : substr pattern (pre.length + 1) name.length = name := substr_name pre name _
  simp only [directive, hdrop, inner_brace pattern pre.length hname,
    inner_arg pattern pre.length harg, hlength, hindex, hstr, hfmt]
  by_cases hnstr : nstr = []
  · simp [hnstr]
  · simp [hnstr]

/-- The iteration at a `%` with an opening brace that is not closed. -/
theorem directive_unterminated (pre : List Char) {name rest : List Char}
    (hname : ∀ c ∈ name, NameChar c) (hrest : '}' ∉ rest) (nstr : List Char)
    (vec : List Tuple) (e : Bool) :
  directive (pre ++ '%' :: (name ++ '{' :: rest)) ⟨pre.length, nstr, vec, e⟩ =
    ⟨pre.length, nstr, vec ++ [⟨"<<pattern_error>>".toList, [], 0⟩], true⟩
  := by
  have hdrop : (pre ++ '%' :: (name ++ '{' :: rest)).drop (pre.length + 1) =
      name ++ '{' :: rest := by simp
  simp only [directive, hdrop, inner_brace _ pre.length hname, inner_open _ pre.length hrest]
  simp

/-- The iteration that consumes the character `c` and the text behind it. -/
theorem outer_succ {pre text rest nstr nstr' : List Char} {c : Char} {vec vec' : List Tuple}
    {e e' : Bool} (fuel : ℕ)
    (hbody : body (pre ++ c :: (text ++ rest)) c ⟨pre.length, nstr, vec, e⟩ =
      ⟨pre.length + text.length, nstr', vec', e'⟩) :
  outer (pre ++ c :: (text ++ rest)) (fuel + 1) ⟨pre.length, nstr, vec, e⟩ =
    outer ((pre ++ c :: text) ++ rest) fuel ⟨(pre ++ c :: text).length, nstr', vec', e'⟩
  := by
  have hc : (pre ++ c :: (text ++ rest))[pre.length]? = some c := by simp
  have hlength : pre.length + text.length + 1 = (pre ++ c :: text).length := by
    simp
    omega
  rw [outer]
  simp only [hc, hbody, hlength, List.append_assoc, List.cons_append]

theorem body_percent (pre : List Char) {rest : List Char} (h : rest.head? ≠ some '%')
    (nstr : List Char) (vec : List Tuple) (e : Bool) :
  body (pre ++ '%' :: rest) '%' ⟨pre.length, nstr, vec, e⟩ =
    directive (pre ++ '%' :: rest) ⟨pre.length, nstr, vec, e⟩
  := by
  have hnext : (pre ++ '%' :: rest)[pre.length + 1]? = rest.head? := by
    simp [List.getElem?_append_right, List.head?_eq_getElem?]
  simp [body, hnext, h]

namespace Chunk

/-- The tuples of a sequence of chunks behind the pending literal `nstr`. -/
def tuples (nstr : List Char) : List Chunk → List Tuple
  | [] => pendingTuples nstr
  | char c :: ks => tuples (nstr ++ [c]) ks
  | percent :: ks => tuples (nstr ++ ['%']) ks
  | bare name :: ks => pendingTuples nstr ++ ⟨name, [], 1⟩ :: tuples [] ks
  | braced name arg :: ks =>
      (if nstr = [] then [⟨[], [], 0⟩] else []) ++ ⟨name, arg, 1⟩ :: tuples nstr ks
  | unterminated :: ks => ⟨"<<pattern_error>>".toList, [], 0⟩ :: tuples nstr ks

/-- An opening brace is not closed. -/
def isUnterminated : Chunk → Bool
  | unterminated => true
  | _ => false

end Chunk

/-- The outer loop goes through the chunks. -/
theorem outer_cuts {rest : List Char} {ks : List Chunk} (h : Cuts rest ks) (pre : List Char)
    (fuel : ℕ) (hfuel : rest.length ≤ fuel) (nstr : List Char) (vec : List Tuple) (e : Bool) :
  let s := (outer (pre ++ rest) fuel ⟨pre.length, nstr, vec, e⟩).flush
  s.vec = vec ++ Chunk.tuples nstr ks ∧ s.mError = (e || ks.any Chunk.isUnterminated)
  := by
  have hhead : ∀ (name rest : List Char), (∀ c ∈ name, NameChar c) →
      (name ++ '{' :: rest).head? ≠ some '%' := by
    intro name rest hname
    cases name with
    | nil => simp
    | cons c name =>
        rintro ⟨⟩
        exact absurd (hname '%' List.mem_cons_self) (by decide)
  induction h generalizing pre fuel nstr vec e with
  | nil =>
      cases fuel with
      | zero => simp [outer, flush_eq, Chunk.tuples]
      | succ fuel => simp [outer, flush_eq, Chunk.tuples]
  | @char c rest ks hc _ ih =>
      obtain ⟨k, rfl⟩ := Nat.exists_eq_add_of_le' (Nat.one_le_of_lt hfuel)
      have hbody : body (pre ++ c :: ([] ++ rest)) c ⟨pre.length, nstr, vec, e⟩ =
          ⟨pre.length + ([] : List Char).length, nstr ++ [c], vec, e⟩ := if_pos hc
      have hstep := outer_succ k hbody
      rw [List.nil_append] at hstep
      rw [hstep]
      apply ih _ _ (Nat.le_of_succ_le_succ hfuel)
  | @percent rest ks _ ih =>
      obtain ⟨k, rfl⟩ := Nat.exists_eq_add_of_le' (Nat.one_le_of_lt hfuel)
      have hbody : body (pre ++ '%' :: ([] ++ '%' :: rest)) '%' ⟨pre.length, nstr, vec, e⟩ =
          ⟨pre.length + ([] : List Char).length, nstr ++ ['%'], vec, e⟩ := by
        simp [body]
      have hstep := outer_succ k hbody
      rw [List.nil_append] at hstep
      rw [hstep]
      apply ih _ _ (Nat.le_of_succ_le_succ hfuel)
  | @bare name rest ks hname hends hpercent _ ih =>
      obtain ⟨k, rfl⟩ := Nat.exists_eq_add_of_le' (Nat.one_le_of_lt hfuel)
      have hbody := (body_percent pre hpercent nstr vec e).trans
        (directive_bare pre hname hends nstr vec e)
      rw [outer_succ k hbody, Chunk.tuples]
      have hrest : rest.length ≤ k := by
        simp only [List.length_cons, List.length_append] at hfuel
        omega
      obtain ⟨hvec, herror⟩ := ih (pre ++ '%' :: name) k hrest []
        (vec ++ pendingTuples nstr ++ [⟨name, [], 1⟩]) e
      exact ⟨hvec.trans (by simp), herror⟩
  | @braced name arg rest ks hname harg _ ih =>
      obtain ⟨k, rfl⟩ := Nat.exists_eq_add_of_le' (Nat.one_le_of_lt hfuel)
      have htext : name ++ '{' :: (arg ++ '}' :: rest) =
          (name ++ '{' :: (arg ++ ['}'])) ++ rest := by simp
      have hbody := (body_percent pre (hhead _ _ hname) nstr vec e).trans
        (directive_braced pre hname harg rest nstr vec e)
      have hlength : pre.length + name.length + arg.length + 2 =
          pre.length + (name ++ '{' :: (arg ++ ['}'])).length := by
        simp
        omega
      rw [hlength, htext] at hbody
      rw [htext, outer_succ k hbody, Chunk.tuples]
      have hrest : rest.length ≤ k := by
        simp only [List.length_cons, List.length_append] at hfuel
        omega
      obtain ⟨hvec, herror⟩ := ih (pre ++ '%' :: (name ++ '{' :: (arg ++ ['}']))) k hrest nstr
        (vec ++ (if nstr = [] then [⟨[], [], 0⟩] else []) ++ [⟨name, arg, 1⟩]) e
      exact ⟨hvec.trans (by simp), herror⟩
  | @unterminated name rest ks hname hrest _ ih =>
      obtain ⟨k, rfl⟩ := Nat.exists_eq_add_of_le' (Nat.one_le_of_lt hfuel)
      have hbody : body (pre ++ '%' :: ([] ++ (name ++ '{' :: rest))) '%'
          ⟨pre.length, nstr, vec, e⟩ = ⟨pre.length + ([] : List Char).length, nstr,
            vec ++ [⟨"<<pattern_error>>".toList, [], 0⟩], true⟩ :=
        (body_percent pre (hhead _ _ hname) nstr vec e).trans
          (directive_unterminated pre hname hrest nstr vec e)
      have hstep := outer_succ k hbody
      rw [List.nil_append] at hstep
      rw [hstep, Chunk.tuples]
      obtain ⟨hvec, herror⟩ := ih (pre ++ ['%']) k (Nat.le_of_succ_le_succ hfuel) nstr
        (vec ++ [⟨"<<pattern_error>>".toList, [], 0⟩]) true
      exact ⟨hvec.trans (by simp), herror.trans (by simp [Chunk.isUnterminated])⟩

/-- The items are those of the chunks. There is an error if a brace is not closed, or if the
tuple of a chunk has none. -/
theorem new_cuts {pattern : String} {ks : List Chunk} (h : Cuts pattern.toList ks) :
  (new pattern).mItems = (Chunk.tuples [] ks).map (fun t => (item t).1) ∧
    (new pattern).mError =
      (ks.any Chunk.isUnterminated || (Chunk.tuples [] ks).any fun t => (item t).2)
  := by
  obtain ⟨hvec, herror⟩ := outer_cuts h [] pattern.toList.length le_rfl [] [] false
  simp only [List.nil_append, List.length_nil, Bool.false_or] at hvec herror
  simp only [new, hvec, herror, and_self]

end LogFormatter

end WbServer
