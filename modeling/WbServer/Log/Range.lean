import WbServer.Log.Format

/-!
# The indices of the scanner

The scanner of `LogFormatter` once more, with the checks that the library and the types of
its indices make: `substr` throws behind the end of the pattern, and a difference of two
`size_t` wraps around below zero. Every loop is given a bound on its iterations.
`LogFormatter.Checked.outer_inRange` says that no check ever fails. An index is at most the
size of the pattern, so that sums do not wrap around.
-/

namespace WbServer

namespace LogFormatter

namespace Checked

/-! ### The code -/

/-- What the scanner can fail with. -/
inductive Fault where
  /-- `std::out_of_range` of `substr`. -/
  | outOfRange
  /-- A difference below zero. -/
  | wraps
  /-- More iterations than allowed. -/
  | running
  deriving DecidableEq

/-- `a - b`. -/
def sub (a b : ℕ) : Except Fault ℕ :=
  if b ≤ a then .ok (a - b) else .error .wraps

/-- `m_pattern.substr(pos, len)`. -/
def substr (pattern : List Char) (pos len : ℕ) : Except Fault (List Char) :=
  if pos ≤ pattern.length then .ok (LogFormatter.substr pattern pos len)
  else .error .outOfRange

/-- `m_pattern.substr(b + 1, n - b - 1)`. -/
def between (pattern : List Char) (b n : ℕ) : Except Fault (List Char) := do
  let d ← sub n b
  let len ← sub d 1
  substr pattern (b + 1) len

/-- The inner loop, from the index `s.n` on. -/
def inner (pattern : List Char) (i : ℕ) : ℕ → Inner → Except Fault Inner
  | 0, s => if s.n < pattern.length then .error .running else .ok s
  | fuel + 1, s =>
      match pattern[s.n]? with
      | none => .ok s
      | some c =>
          if s.fmtStatus = 0 ∧ (¬ c.isAlpha ∧ c ≠ '{' ∧ c ≠ '}') then do
            let str ← between pattern i s.n
            .ok { s with str := str }
          else if s.fmtStatus = 0 ∧ c = '{' then do
            let str ← between pattern i s.n
            inner pattern i fuel
              { s with str := str, fmtStatus := 1, fmtBegin := s.n, n := s.n + 1 }
          else if s.fmtStatus = 1 ∧ c = '}' then do
            let fmt ← between pattern s.fmtBegin s.n
            .ok { s with fmt := fmt, fmtStatus := 2, n := s.n + 1 }
          else inner pattern i fuel { s with n := s.n + 1 }

/-- The directive at the index `i`, up to the end of the iteration. -/
def directive (pattern : List Char) (s : Outer) : Except Fault Outer := do
  let t ← inner pattern s.i pattern.length ⟨s.i + 1, 0, 0, [], []⟩
  if t.fmtStatus = 0 then
    let str ← between pattern s.i t.n
    let i ← sub t.n 1
    .ok { s.flush with vec := s.flush.vec ++ [⟨str, t.fmt, 1⟩], i := i }
  else if t.fmtStatus = 1 then
    -- the rest of the pattern is printed
    let _ ← substr pattern s.i pattern.length
    .ok { s with
      mError := true, vec := s.vec ++ [⟨"<<pattern_error>>".toList, t.fmt, 0⟩] }
  else
    let u : Outer :=
      if s.nstr = [] then { s with vec := s.vec ++ [⟨s.nstr, [], 0⟩], nstr := [] } else s
    let i ← sub t.n 1
    .ok { u with vec := u.vec ++ [⟨t.str, t.fmt, 1⟩], i := i }

/-- The body of the outer loop at the character `c`, without `++i`. -/
def body (pattern : List Char) (c : Char) (s : Outer) : Except Fault Outer :=
  if c ≠ '%' then .ok { s with nstr := s.nstr ++ [c] }
  else if pattern[s.i + 1]? = some '%' then .ok { s with nstr := s.nstr ++ ['%'] }
  else directive pattern s

/-- The outer loop, with the index of each iteration. -/
def outer (pattern : List Char) : ℕ → Outer → Except Fault (List ℕ × Outer)
  | 0, s => if s.i < pattern.length then .error .running else .ok ([], s)
  | fuel + 1, s =>
      match pattern[s.i]? with
      | none => .ok ([], s)
      | some c => do
          let t ← body pattern c s
          let r ← outer pattern fuel { t with i := t.i + 1 }
          .ok (s.i :: r.1, r.2)

/-! ### Indices in range -/

variable {pattern : List Char}

theorem between_eq {b n : ℕ} (hb : b < n) (hn : n ≤ pattern.length) :
  between pattern b n = .ok (LogFormatter.substr pattern (b + 1) (n - b - 1))
  := by
  have hd : sub n b = .ok (n - b) := if_pos hb.le
  have hlen : sub (n - b) 1 = .ok (n - b - 1) := if_pos (by omega)
  have hpos : b + 1 ≤ pattern.length := by omega
  rw [between, hd]
  simp only [bind, Except.bind, hlen]
  exact if_pos hpos

/-- The indices of the inner loop behind the `%` at `i`. -/
structure InRange (pattern : List Char) (i : ℕ) (s : Inner) : Prop where
  lt : i < s.n
  le : s.n ≤ pattern.length
  fmtBegin : s.fmtStatus = 1 → s.fmtBegin < s.n

/-- No check of the inner loop fails, and its index stays in range. -/
theorem inner_eq {i : ℕ} {s : Inner} (hs : InRange pattern i s) {fuel : ℕ}
    (hfuel : pattern.length ≤ s.n + fuel) :
  inner pattern i fuel s = .ok (LogFormatter.inner pattern i (pattern.drop s.n) s) ∧
    InRange pattern i (LogFormatter.inner pattern i (pattern.drop s.n) s)
  := by
  induction fuel generalizing s with
  | zero =>
      have hdrop : pattern.drop s.n = [] := List.drop_eq_nil_of_le hfuel
      rw [hdrop]
      exact ⟨if_neg (Nat.not_lt_of_le hfuel), hs⟩
  | succ fuel ih =>
      cases hdrop : pattern.drop s.n with
      | nil =>
          have hnone : pattern[s.n]? = none :=
            List.getElem?_eq_none (List.drop_eq_nil_iff.mp hdrop)
          constructor
          · simp only [inner, hnone, LogFormatter.inner]
          · apply hs
      | cons c rest =>
          have hsome : pattern[s.n]? = some c := by
            rw [← List.head?_drop, hdrop, List.head?_cons]
          have hlt : s.n < pattern.length := (List.getElem?_eq_some_iff.mp hsome).1
          have hrest : pattern.drop (s.n + 1) = rest := by
            rw [← List.tail_drop, hdrop, List.tail_cons]
          have hname := between_eq hs.lt hs.le
          have hnext : ∀ t : Inner, t.n = s.n + 1 → InRange pattern i t →
              inner pattern i fuel t = .ok (LogFormatter.inner pattern i rest t) ∧
                InRange pattern i (LogFormatter.inner pattern i rest t) := by
            intro t ht hrange
            have htail := ih hrange (by omega)
            rwa [ht, hrest] at htail
          simp only [inner, hsome, LogFormatter.inner]
          -- the conditions are those of the loop without checks
          split
          · rw [hname]
            exact ⟨rfl, hs.lt, hs.le, hs.fmtBegin⟩
          · split
            · rw [hname]
              apply hnext _ rfl
              exact ⟨Nat.lt_succ_of_lt hs.lt, hlt, fun _ => Nat.lt_succ_self _⟩
            · split
              case isTrue hclose =>
                rw [between_eq (hs.fmtBegin hclose.1) hs.le]
                exact ⟨rfl, Nat.lt_succ_of_lt hs.lt, hlt, by simp⟩
              case isFalse =>
                apply hnext _ rfl
                exact ⟨Nat.lt_succ_of_lt hs.lt, hlt,
                  fun h => Nat.lt_succ_of_lt (hs.fmtBegin h)⟩

/-- No check of an iteration at a `%` fails, and the index does not decrease. -/
theorem directive_eq {s : Outer} (hi : s.i < pattern.length) :
  directive pattern s = .ok (LogFormatter.directive pattern s) ∧
    s.i ≤ (LogFormatter.directive pattern s).i
  := by
  have hstart : InRange pattern s.i ⟨s.i + 1, 0, 0, [], []⟩ :=
    ⟨Nat.lt_succ_self _, hi, by simp⟩
  have hfuel : pattern.length ≤ s.i + 1 + pattern.length := Nat.le_add_left _ _
  obtain ⟨hinner, hrange⟩ := inner_eq hstart hfuel
  simp only [directive, LogFormatter.directive, hinner, bind, Except.bind]
  set t := LogFormatter.inner pattern s.i (pattern.drop (s.i + 1)) ⟨s.i + 1, 0, 0, [], []⟩
  have hlt := hrange.lt
  have hsub : sub t.n 1 = .ok (t.n - 1) := if_pos (by omega)
  have hle : s.i ≤ t.n - 1 := by omega
  split
  · rw [between_eq hrange.lt hrange.le]
    simp only [hsub]
    exact ⟨trivial, hle⟩
  · split
    · have hsubstr : substr pattern s.i pattern.length =
          .ok (LogFormatter.substr pattern s.i pattern.length) := if_pos hi.le
      simp only [hsubstr]
      exact ⟨trivial, le_rfl⟩
    · simp only [hsub]
      exact ⟨trivial, hle⟩

theorem body_eq {s : Outer} (hi : s.i < pattern.length) (c : Char) :
  body pattern c s = .ok (LogFormatter.body pattern c s) ∧
    s.i ≤ (LogFormatter.body pattern c s).i
  := by
  unfold body LogFormatter.body
  split
  · exact ⟨rfl, le_rfl⟩
  · split
    · exact ⟨rfl, le_rfl⟩
    · apply directive_eq hi

/-- No check of the outer loop fails, and its index increases. -/
theorem outer_eq {s : Outer} {fuel : ℕ} (hfuel : pattern.length ≤ s.i + fuel) :
  ∃ is, outer pattern fuel s = .ok (is, LogFormatter.outer pattern fuel s) ∧
    is.Pairwise (· < ·) ∧ ∀ i ∈ is, s.i ≤ i ∧ i < pattern.length
  := by
  induction fuel generalizing s with
  | zero => exact ⟨[], if_neg (Nat.not_lt_of_le hfuel), .nil, by simp⟩
  | succ fuel ih =>
      cases hc : pattern[s.i]? with
      | none =>
          simp only [outer, LogFormatter.outer, hc]
          exact ⟨[], rfl, .nil, by simp⟩
      | some c =>
        simp only [outer, LogFormatter.outer, hc]
        have hi : s.i < pattern.length := (List.getElem?_eq_some_iff.mp hc).1
        obtain ⟨hbody, hle⟩ := body_eq hi c
        set t := LogFormatter.body pattern c s
        obtain ⟨is, houter, hsorted, hrange⟩ := @ih { t with i := t.i + 1 } (by
          change pattern.length ≤ t.i + 1 + fuel
          omega)
        have hlater : ∀ i ∈ is, s.i < i := by
          intro i hmem
          exact Nat.lt_of_le_of_lt hle (hrange i hmem).1
        use s.i :: is
        constructor
        · simp only [hbody, houter, bind, Except.bind]
        · refine ⟨List.pairwise_cons.mpr ⟨hlater, hsorted⟩, ?_⟩
          rw [List.forall_mem_cons]
          exact ⟨⟨le_rfl, hi⟩, fun i hmem => ⟨(hlater i hmem).le, (hrange i hmem).2⟩⟩

/-- More iterations change nothing. -/
theorem outer_succ {s : Outer} {fuel : ℕ} {r : List ℕ × Outer}
    (h : outer pattern fuel s = .ok r) :
  outer pattern (fuel + 1) s = .ok r
  := by
  induction fuel generalizing s r with
  | zero =>
      rw [outer] at h
      split at h
      case isTrue => cases h
      case isFalse hlt =>
        have hnone : pattern[s.i]? = none := List.getElem?_eq_none (Nat.le_of_not_lt hlt)
        rw [outer, hnone]
        exact h
  | succ fuel ih =>
      rw [outer] at h ⊢
      cases hc : pattern[s.i]? with
      | none => simpa only [hc] using h
      | some c =>
          simp only [hc, bind, Except.bind] at h ⊢
          cases hbody : body pattern c s with
          | error e => simp only [hbody, reduceCtorEq] at h
          | ok t =>
              simp only [hbody] at h ⊢
              cases hrest : outer pattern fuel { t with i := t.i + 1 } with
              | error e => simp only [hrest, reduceCtorEq] at h
              | ok q =>
                  rw [ih hrest]
                  simpa only [hrest] using h

/-- For every pattern, the outer loop ends behind at most as many iterations as the pattern
has characters, its index increases, and no check fails. -/
theorem outer_inRange (pattern : String) :
  ∃ is s, (∀ fuel, pattern.length ≤ fuel →
      outer pattern.toList fuel ⟨0, [], [], false⟩ = .ok (is, s)) ∧
    is.Pairwise (· < ·) ∧ (∀ i ∈ is, i < pattern.length) ∧
    LogFormatter.new pattern =
      { mPattern := pattern
        mItems := s.flush.vec.map fun t => (item t).1
        mError := s.flush.mError || s.flush.vec.any fun t => (item t).2 }
  := by
  obtain ⟨is, hstart, hsorted, hrange⟩ :=
    @outer_eq pattern.toList ⟨0, [], [], false⟩ pattern.toList.length (Nat.le_add_left _ _)
  refine ⟨is, _, ?_, hsorted, ?_, rfl⟩
  · intro fuel hfuel
    rw [← String.length_toList] at hfuel
    induction fuel, hfuel using Nat.le_induction with
    | base => apply hstart
    | succ fuel _ ih => apply outer_succ ih
  · intro i hi
    rw [← String.length_toList]
    apply (hrange i hi).2

end Checked

end LogFormatter

end WbServer
