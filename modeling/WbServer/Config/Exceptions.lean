import WbServer.Config.Var

/-!
# Exceptions of listeners

The listeners are called one after another in front of the assignment. An exception of one
of them leaves the loop: the value stays, the listeners behind it are not called, and those
in front of it have been notified of a value that is not stored. `ConfigVar.exec_interrupted`
says so of one call and of what a listener knows behind any sequence of calls.

`from_string` catches the exceptions and returns `false` in any case;
`ConfigVar.fromString_reports_iff` says when this is what it should return.
-/

namespace WbServer

namespace ConfigVar

variable {T W ε : Type*}

/-! ### One call -/

/-- One of the listeners throws when they are called in turn. -/
def Throws (old new : T) : List (ℕ × Listener T W ε) → W → Prop
  | [], _ => False
  | c :: cbs, w => (c.2 old new w).2 ≠ none ∨ Throws old new cbs (c.2 old new w).1

/-- The loop ends with an exception if and only if a listener throws. -/
theorem notify_thrown_iff (old new : T) (cbs : List (ℕ × Listener T W ε)) (w : W) :
  (notify old new cbs w).2.2 = none ↔ ¬ Throws old new cbs w
  := by
  induction cbs generalizing w with
  | nil => simp [notify, Throws]
  | cons c cbs ih =>
      rcases hc : c.2 old new w with ⟨w', _ | e⟩
      · simp [notify, Throws, hc, ih]
      · simp [notify, Throws, hc]

/-- The call was left in the loop by the first listener that throws. The listeners up to it
have been called. -/
structure Interrupted (var : ConfigVar T W ε) (val : T) (w : W) (u : Update T W ε) : Prop where
  stored : u.var = var
  calls : ∃ done c rest, var.mCbs = done ++ c :: rest ∧ ¬ Throws var.mVal val done w ∧
    Throws var.mVal val (done ++ [c]) w ∧ u.calls = (done ++ [c]).map Prod.fst

theorem notify_interrupted {old new : T} {cbs : List (ℕ × Listener T W ε)} {w : W} {e : ε}
    (h : (notify old new cbs w).2.2 = some e) :
  ∃ done c rest, cbs = done ++ c :: rest ∧ ¬ Throws old new done w ∧
    Throws old new (done ++ [c]) w ∧ (notify old new cbs w).2.1 = (done ++ [c]).map Prod.fst
  := by
  induction cbs generalizing w with
  | nil => cases h
  | cons c cbs ih =>
      rcases hc : c.2 old new w with ⟨w', _ | e'⟩
      · simp only [notify, hc] at h ⊢
        obtain ⟨done, d, rest, rfl, hdone, hthrows, hcalls⟩ := ih h
        refine ⟨c :: done, d, rest, rfl, ?_, ?_, by simp [hcalls]⟩
        · simpa [Throws, hc] using hdone
        · simpa [Throws, hc] using hthrows
      · exact ⟨[], c, cbs, rfl, id, .inl (by simp [hc]), by simp [notify, hc]⟩

variable {eq : T → T → Bool} {var : ConfigVar T W ε} {val : T} {w : W}

theorem setValue_interrupted {e : ε} (h : (setValue eq var val w).thrown = some e) :
  eq val var.mVal = false ∧ Interrupted var val w (setValue eq var val w)
  := by
  cases heq : eq val var.mVal with
  | true => simp [setValue_of_eq heq] at h
  | false =>
      rcases hn : notify var.mVal val var.mCbs w with ⟨w', calls, _ | e'⟩
      · simp [setValue, heq, hn] at h
      · have hthrown : (notify var.mVal val var.mCbs w).2.2 = some e' := by rw [hn]
        have hcalls := notify_interrupted hthrown
        have hu : setValue eq var val w = ⟨var, w', calls, some e'⟩ := by
          simp [setValue, heq, hn]
        rw [hu]
        rw [hn] at hcalls
        exact ⟨rfl, rfl, hcalls⟩

/-- `set_value` ends with an exception if and only if it calls the listeners and one of them
throws. -/
theorem setValue_thrown_iff :
  (setValue eq var val w).thrown = none ↔
    ¬ (eq val var.mVal = false ∧ Throws var.mVal val var.mCbs w)
  := by
  cases heq : eq val var.mVal with
  | true => simp [setValue_of_eq heq]
  | false =>
      simp only [true_and, ← notify_thrown_iff]
      rcases hn : notify var.mVal val var.mCbs w with ⟨w', calls, _ | e⟩
      · simp [setValue, heq, hn]
      · simp [setValue, heq, hn]

/-- What `set_value` does. -/
theorem setValue_cases (eq : T → T → Bool) (var : ConfigVar T W ε) (val : T) (w : W) :
  (eq val var.mVal = true ∧
    setValue eq var val w = { var := var, world := w, calls := [], thrown := none }) ∨
  (eq val var.mVal = false ∧ (setValue eq var val w).thrown ≠ none ∧
    Interrupted var val w (setValue eq var val w)) ∨
  (eq val var.mVal = false ∧ (setValue eq var val w).thrown = none ∧
    (setValue eq var val w).var = { var with mVal := val } ∧
    (setValue eq var val w).calls = var.mCbs.map Prod.fst)
  := by
  cases heq : eq val var.mVal with
  | true => exact .inl ⟨rfl, setValue_of_eq heq⟩
  | false =>
      right
      cases hthrown : (setValue eq var val w).thrown with
      | some e => exact .inl ⟨rfl, by simp, (setValue_interrupted hthrown).2⟩
      | none =>
          right
          rw [setValue_of_ne heq hthrown]
          exact ⟨rfl, rfl, rfl, rfl⟩

/-! ### Sequences of calls -/

/-- A call of `set_value` or `from_string`. -/
inductive Call (T : Type*) where
  | setValue (val : T)
  | fromString (text : String)

/-- The value with which a call reaches `set_value`, if it does. -/
def Call.val? (fromStr : String → Option T) : Call T → Option T
  | setValue val => some val
  | fromString text => fromStr text

/-- What the call does. -/
def Call.exec (fromStr : String → Option T) (eq : T → T → Bool) (c : Call T)
    (var : ConfigVar T W ε) (w : W) : Update T W ε :=
  match c with
  | setValue val => ConfigVar.setValue eq var val w
  | fromString text => (ConfigVar.fromString fromStr eq var text w).1

/-- A record of a call that reached `set_value`: the new value, the listeners that were
called, and the exception that left the loop. -/
structure Notice (T ε : Type*) where
  new : T
  keys : List ℕ
  thrown : Option ε

/-- A variable, the world of the listeners, and the records of the calls so far. -/
structure History (T W ε : Type*) where
  var : ConfigVar T W ε
  world : W
  notices : List (Notice T ε)

variable {fromStr : String → Option T}

/-- If a call reaches `set_value`, it does what that does. -/
theorem Call.exec_of_val (eq : T → T → Bool) (var : ConfigVar T W ε) (w : W) {c : Call T}
    (h : c.val? fromStr = some val) :
  (c.exec fromStr eq var w).var = (ConfigVar.setValue eq var val w).var ∧
    (c.exec fromStr eq var w).world = (ConfigVar.setValue eq var val w).world ∧
    (c.exec fromStr eq var w).calls = (ConfigVar.setValue eq var val w).calls
  := by
  cases c with
  | setValue v =>
      obtain rfl := Option.some.inj h
      exact ⟨rfl, rfl, rfl⟩
  | fromString text =>
      have hconvert : fromStr text = some val := h
      simp [exec, ConfigVar.fromString, hconvert]

theorem Call.exec_of_none (eq : T → T → Bool) (var : ConfigVar T W ε) (w : W) {c : Call T}
    (h : c.val? fromStr = none) :
  (c.exec fromStr eq var w).var = var
  := by
  cases c with
  | setValue v => cases h
  | fromString text => simp [exec, fromString_of_none (show fromStr text = none from h)]

namespace History

/-- The call is made, and recorded if it reaches `set_value`. -/
def call (fromStr : String → Option T) (eq : T → T → Bool) (h : History T W ε) (c : Call T) :
    History T W ε :=
  let u := c.exec fromStr eq h.var h.world
  { var := u.var
    world := u.world
    notices := h.notices ++ (c.val? fromStr).toList.map fun val =>
      let u := setValue eq h.var val h.world
      { new := val, keys := u.calls, thrown := u.thrown } }

/-- The record of the last call that notified the listener. -/
def last (h : History T W ε) (key : ℕ) : Option (Notice T ε) :=
  (h.notices.filter fun n => key ∈ n.keys).getLast?

/-- What a listener was notified of is what is stored if the call ended well, and is another
value if not. -/
def Agrees (eq : T → T → Bool) (stored : T) (n : Notice T ε) : Prop :=
  if n.thrown = none then n.new = stored else eq n.new stored = false

/-- Each listener that was called is registered, and its last notification agrees with the
value. -/
structure Tracks (eq : T → T → Bool) (h : History T W ε) : Prop where
  keys : ∀ n ∈ h.notices, ∀ key ∈ n.keys, key ∈ h.var.mCbs.map Prod.fst
  last : ∀ key n, h.last key = some n → Agrees eq h.var.mVal n

theorem last_append (var : ConfigVar T W ε) (w : W) (notices : List (Notice T ε))
    (n : Notice T ε) (key : ℕ) :
  History.last ⟨var, w, notices ++ [n]⟩ key =
    if key ∈ n.keys then some n else History.last ⟨var, w, notices⟩ key
  := by
  simp only [last, List.filter_append]
  split
  case isTrue hkey => simp [hkey]
  case isFalse hkey => simp [hkey]

/-- One more record, of registered listeners. -/
theorem Tracks.keys_append {h : History T W ε} (hh : Tracks eq h) {n : Notice T ε}
    (hn : ∀ key ∈ n.keys, key ∈ h.var.mCbs.map Prod.fst) :
  ∀ m ∈ h.notices ++ [n], ∀ key ∈ m.keys, key ∈ h.var.mCbs.map Prod.fst
  := by
  intro m hm
  obtain hm | hm := List.mem_append.mp hm
  · apply hh.keys m hm
  · obtain rfl := List.mem_singleton.mp hm
    apply hn

/-- A call of `set_value` with its record. -/
theorem Tracks.setValue {h : History T W ε} (hh : Tracks eq h) (val : T) :
  let u := ConfigVar.setValue eq h.var val h.world
  Tracks eq ⟨u.var, u.world, h.notices ++ [⟨val, u.calls, u.thrown⟩]⟩
  := by
  have hlast : ∀ key n, History.last ⟨h.var, h.world, h.notices⟩ key = some n →
      Agrees eq h.var.mVal n := hh.last
  obtain ⟨_, hu⟩ | ⟨hne, hthrown, hvar, hcalls⟩ | ⟨_, hthrown, hvar, hcalls⟩ :=
    setValue_cases eq h.var val h.world
  · rw [hu]
    constructor
    case keys =>
      apply hh.keys_append
      intro key hkey
      cases hkey
    case last =>
      intro key n hn
      rw [last_append, if_neg List.not_mem_nil] at hn
      apply hlast key n hn
  · obtain ⟨done, c, rest, hcbs, -, -, hcalls⟩ := hcalls
    constructor
    case keys =>
      rw [hvar]
      apply hh.keys_append
      intro key hkey
      rw [hcalls] at hkey
      rw [hcbs, List.append_cons, List.map_append]
      apply List.mem_append_left _ hkey
    case last =>
      intro key n hn
      rw [hvar]
      rw [last_append] at hn
      split at hn
      case isTrue =>
        obtain rfl := Option.some.inj hn
        rw [Agrees, if_neg hthrown]
        apply hne
      case isFalse => apply hlast key n hn
  · constructor
    case keys =>
      rw [hvar]
      apply hh.keys_append
      intro key hkey
      rw [hcalls] at hkey
      apply hkey
    case last =>
      -- all listeners have been called, so there is no older notification that counts
      intro key n hn
      rw [hvar]
      rw [last_append, hcalls] at hn
      split at hn
      case isTrue =>
        obtain rfl := Option.some.inj hn
        rw [Agrees, if_pos hthrown]
      case isFalse hkey =>
        have hmem := List.mem_filter.mp (List.mem_of_getLast? hn)
        exact absurd (hh.keys n hmem.1 key (by simpa using hmem.2)) hkey

theorem Tracks.call {h : History T W ε} (hh : Tracks eq h) (fromStr : String → Option T)
    (c : Call T) :
  Tracks eq (h.call fromStr eq c)
  := by
  simp only [History.call]
  cases hval : c.val? fromStr with
  | none =>
      have hvar := Call.exec_of_none eq h.var h.world hval
      rw [hvar, Option.toList_none, List.map_nil, List.append_nil]
      exact ⟨hh.keys, hh.last⟩
  | some val =>
      obtain ⟨hvar, hworld, -⟩ := Call.exec_of_val eq h.var h.world hval
      rw [hvar, hworld]
      apply hh.setValue val

/-- Along a sequence of calls. -/
theorem Tracks.foldl {h : History T W ε} (hh : Tracks eq h) (fromStr : String → Option T)
    (cs : List (Call T)) :
  Tracks eq (cs.foldl (History.call fromStr eq) h)
  := by
  induction cs generalizing h with
  | nil => apply hh
  | cons c cs ih => apply ih (hh.call fromStr c)

end History

/-- A call that an exception of a listener leaves stores nothing and has notified the
listeners up to the one that throws. Behind any calls, what a listener was notified of last
is stored if that call ended well, and is another value than the stored one if not. -/
theorem exec_interrupted (fromStr : String → Option T) (eq : T → T → Bool)
    (var : ConfigVar T W ε) (w : W) :
  (∀ (c : Call T) val e, c.val? fromStr = some val → (setValue eq var val w).thrown = some e →
    Interrupted var val w (c.exec fromStr eq var w)) ∧
  ∀ (cs : List (Call T)) key n,
    (cs.foldl (History.call fromStr eq) ⟨var, w, []⟩).last key = some n →
      History.Agrees eq (cs.foldl (History.call fromStr eq) ⟨var, w, []⟩).var.mVal n
  := by
  constructor
  · intro c val e hval hthrown
    obtain ⟨hvar, -, hcalls⟩ := Call.exec_of_val eq var w hval
    obtain ⟨-, hu⟩ := setValue_interrupted hthrown
    exact ⟨hvar.trans hu.stored, by rw [hcalls]; exact hu.calls⟩
  · intro cs
    have hstart : History.Tracks eq (⟨var, w, []⟩ : History T W ε) := by
      constructor
      case keys =>
        intro n hn
        cases hn
      case last =>
        intro key n hn
        cases hn
    apply (hstart.foldl fromStr cs).last

/-- A variable with a listener that accepts every value and one that accepts those up to 9. -/
def limited : ConfigVar ℕ Unit String where
  mVal := 1
  mCbs := [(1, fun _ _ w => (w, none)),
    (2, fun _ new w => (w, if 9 < new then some "range" else none))]

/-- The first listener of `limited` is notified of 10, which is not stored. -/
theorem exec_interrupted_limited :
  let u := setValue (· = ·) limited 10 ()
  let h := [Call.setValue 10].foldl (History.call (fun _ => none) (· = ·)) ⟨limited, (), []⟩
  u.thrown = some "range" ∧ u.var.mVal = 1 ∧ u.calls = [1, 2] ∧
    (h.last 1).map Notice.new = some 10 ∧ h.var.mVal = 1
  := ⟨rfl, rfl, rfl, rfl, rfl⟩

/-! ### The result of `from_string` -/

/-- The result tells that the text is converted and no listener throws, and then the value
is stored; without it nothing is. -/
structure Reports (fromStr : String → Option T) (eq : T → T → Bool) (var : ConfigVar T W ε)
    (text : String) (w : W) (r : Update T W ε × Bool) : Prop where
  result : r.2 = true ↔ ∃ val, fromStr text = some val ∧ (setValue eq var val w).thrown = none
  stored : r.2 = true → ∃ val, fromStr text = some val ∧ r.1.var.mVal = val
  unchanged : r.2 = false → r.1.var.mVal = var.mVal

/-- `from_string` reports its outcome if and only if the text cannot be converted or a
listener throws. -/
theorem fromString_reports_iff (heq : ∀ x y, eq x y = true ↔ x = y) (text : String) :
  Reports fromStr eq var text w (fromString fromStr eq var text w) ↔
    fromStr text = none ∨
      ∃ val, fromStr text = some val ∧ val ≠ var.mVal ∧ Throws var.mVal val var.mCbs w
  := by
  have hfalse : (fromString fromStr eq var text w).2 = false := by
    unfold fromString
    split <;> rfl
  have hne : ∀ val, eq val var.mVal = false ↔ val ≠ var.mVal := by
    intro val
    rw [ne_eq, ← heq, Bool.not_eq_true]
  cases htext : fromStr text with
  | none =>
      constructor
      · exact fun _ => .inl rfl
      · intro _
        constructor
        case result => simp [hfalse, htext]
        case stored => simp [hfalse]
        case unchanged => simp [fromString_of_none htext]
  | some val =>
      have hiff : (setValue eq var val w).thrown ≠ none ↔
          val ≠ var.mVal ∧ Throws var.mVal val var.mCbs w := by
        rw [ne_eq, setValue_thrown_iff, not_not, hne]
      simp only [reduceCtorEq, false_or, Option.some.injEq, exists_eq_left', ← hiff]
      constructor
      · intro h hthrown
        have htrue := h.result.mpr ⟨val, htext, hthrown⟩
        rw [hfalse] at htrue
        cases htrue
      · intro hthrown
        obtain ⟨e, he⟩ := Option.ne_none_iff_exists'.mp hthrown
        constructor
        case result => simp [hfalse, htext, he]
        case stored => simp [hfalse]
        case unchanged =>
          intro _
          simp [fromString, htext, (setValue_interrupted he).2.stored]

/-- A conversion of two numerals. -/
def numeral (text : String) : Option ℕ :=
  if text = "5" then some 5 else if text = "10" then some 10 else none

/-- `limited` refuses 10, and `from_string` returns `false` as it should. -/
theorem fromString_reports_limited :
  let r := fromString numeral (· = ·) limited "10" ()
  r.2 = false ∧ Reports numeral (· = ·) limited "10" () r
  := by
  have heq : ∀ x y : ℕ, decide (x = y) = true ↔ x = y := by simp
  have hthrows : Throws limited.mVal 10 limited.mCbs () := .inr (.inl (by simp))
  refine ⟨rfl, ?_⟩
  apply (fromString_reports_iff heq "10").mpr
  exact .inr ⟨10, rfl, by decide, hthrows⟩

/-- `limited` stores 5, and `from_string` returns `false`. -/
theorem fromString_misreports :
  let r := fromString numeral (· = ·) limited "5" ()
  r.2 = false ∧ r.1.var.mVal = 5 ∧ ¬ Reports numeral (· = ·) limited "5" () r
  := by
  refine ⟨rfl, rfl, fun h => ?_⟩
  have htrue := h.result.mpr ⟨5, rfl, rfl⟩
  cases htrue

end ConfigVar

end WbServer
