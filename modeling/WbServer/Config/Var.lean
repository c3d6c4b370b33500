import Mathlib.Tactic

/-!
# `ConfigVar`

A configuration variable stores a value and the listeners that are called before the value
changes. A listener acts on a world `W` outside of the variable and may end with an
exception, which leaves `set_value` in front of the assignment.
-/

namespace WbServer

/-- An `on_change_cb`: what it does to the world, given the old and the new value, and the
exception it ends with, if it throws. -/
abbrev Listener (T W ε : Type*) : Type _ := T → T → W → W × Option ε

/-- `ConfigVar`: `m_val` and the listeners of `m_cbs` in the order of their keys. -/
structure ConfigVar (T W ε : Type*) where
  mVal : T
  mCbs : List (ℕ × Listener T W ε)

namespace ConfigVar

variable {T W ε : Type*}

/-- The outcome of a call of `set_value`: the variable and the world behind it, the keys of
the listeners that were called, and the exception that left it. -/
structure Update (T W ε : Type*) where
  var : ConfigVar T W ε
  world : W
  calls : List ℕ
  thrown : Option ε

/-- The loop over the listeners. -/
def notify (old new : T) : List (ℕ × Listener T W ε) → W → W × List ℕ × Option ε
  | [], w => (w, [], none)
  | (key, cb) :: cbs, w =>
      match cb old new w with
      | (w, some e) => (w, [key], some e)
      | (w, none) =>
          let r := notify old new cbs w
          (r.1, key :: r.2.1, r.2.2)

/-- `ConfigVar::set_value`, with the `operator==` of the value type. -/
def setValue (eq : T → T → Bool) (var : ConfigVar T W ε) (val : T) (w : W) : Update T W ε :=
  if eq val var.mVal then { var := var, world := w, calls := [], thrown := none }
  else
    match notify var.mVal val var.mCbs w with
    | (w, calls, some e) => { var := var, world := w, calls := calls, thrown := some e }
    | (w, calls, none) =>
        { var := { var with mVal := val }, world := w, calls := calls, thrown := none }

/-- `ConfigVar::from_string`, and what it returns. An exception of the conversion or of a
listener is caught. -/
def fromString (fromStr : String → Option T) (eq : T → T → Bool) (var : ConfigVar T W ε)
    (val : String) (w : W) : Update T W ε × Bool :=
  match fromStr val with
  | none => ({ var := var, world := w, calls := [], thrown := none }, false)
  | some v => ({ setValue eq var v w with thrown := none }, false)

/-- Without an exception all listeners have been called. -/
theorem notify_calls {old new : T} {cbs : List (ℕ × Listener T W ε)} {w : W}
    (h : (notify old new cbs w).2.2 = none) :
  (notify old new cbs w).2.1 = cbs.map Prod.fst
  := by
  induction cbs generalizing w with
  | nil => rfl
  | cons c cbs ih =>
      obtain ⟨key, cb⟩ := c
      simp only [notify] at h ⊢
      split at h
      case h_1 => simp at h
      case h_2 => simp [ih h]

variable {eq : T → T → Bool} {var : ConfigVar T W ε} {val : T} {w : W}

/-- An equal value changes nothing and calls no listener. -/
theorem setValue_of_eq (h : eq val var.mVal = true) :
  setValue eq var val w = { var := var, world := w, calls := [], thrown := none }
  := if_pos h

/-- Unless a listener throws, a value that is not equal is stored and all listeners are
called. -/
theorem setValue_of_ne (h : eq val var.mVal = false)
    (hthrown : (setValue eq var val w).thrown = none) :
  setValue eq var val w =
    { var := { var with mVal := val }
      world := (notify var.mVal val var.mCbs w).1
      calls := var.mCbs.map Prod.fst
      thrown := none }
  := by
  have hcalls : (notify var.mVal val var.mCbs w).2.2 = none → _ := notify_calls
  rcases hn : notify var.mVal val var.mCbs w with ⟨w', calls, _ | e⟩
  · simp only [hn] at hcalls
    simp [setValue, h, hn, hcalls]
  · simp [setValue, h, hn] at hthrown

/-- The listeners stay the same. -/
@[simp]
theorem setValue_mCbs :
  (setValue eq var val w).var.mCbs = var.mCbs
  := by
  unfold setValue
  split
  · rfl
  · split <;> rfl

@[simp]
theorem fromString_mCbs {fromStr : String → Option T} {text : String} :
  (fromString fromStr eq var text w).1.var.mCbs = var.mCbs
  := by
  unfold fromString
  split
  · rfl
  · apply setValue_mCbs

/-! ### Listeners that do not throw -/

/-- No listener of the variable throws. -/
def NoThrow (var : ConfigVar T W ε) : Prop :=
  ∀ c ∈ var.mCbs, ∀ old new w, (c.2 old new w).2 = none

theorem notify_noThrow {old new : T} {cbs : List (ℕ × Listener T W ε)}
    (h : ∀ c ∈ cbs, ∀ old new w, (c.2 old new w).2 = none) (w : W) :
  (notify old new cbs w).2.2 = none
  := by
  induction cbs generalizing w with
  | nil => rfl
  | cons c cbs ih =>
      obtain ⟨key, cb⟩ := c
      obtain ⟨hcb, hcbs⟩ := List.forall_mem_cons.mp h
      have hnone : cb old new w = ((cb old new w).1, none) := Prod.ext rfl (hcb old new w)
      rw [notify, hnone]
      apply ih hcbs _

theorem NoThrow.setValue_thrown (h : var.NoThrow) :
  (setValue eq var val w).thrown = none
  := by
  have hnotify : (notify var.mVal val var.mCbs w).2.2 = none := notify_noThrow h w
  unfold setValue
  split
  · rfl
  · rcases hn : notify var.mVal val var.mCbs w with ⟨w', calls, _ | e⟩
    · rfl
    · simp [hn] at hnotify

/-- If `==` is equality and no listener throws, the value is stored in any case. -/
theorem NoThrow.setValue_var (h : var.NoThrow) (heq : ∀ x y, eq x y = true ↔ x = y) :
  (setValue eq var val w).var = { var with mVal := val }
  := by
  by_cases hval : val = var.mVal
  · rw [setValue_of_eq ((heq val var.mVal).mpr hval), hval]
  · have hne : eq val var.mVal = false := by
      rw [Bool.eq_false_iff, ne_eq, heq]
      apply hval
    rw [setValue_of_ne hne h.setValue_thrown]

/-- A conversion that fails changes nothing and calls no listener. -/
theorem fromString_of_none {fromStr : String → Option T} {text : String}
    (h : fromStr text = none) :
  (fromString fromStr eq var text w).1 =
    { var := var, world := w, calls := [], thrown := none }
  := by
  simp [fromString, h]

/-- The value that `from_string` leaves in a variable without throwing listeners. -/
def stored (fromStr : String → Option T) (eq : T → T → Bool) (old : T) (text : String) : T :=
  match fromStr text with
  | none => old
  | some v => if eq v old then old else v

theorem NoThrow.fromString_mVal (h : var.NoThrow) (fromStr : String → Option T) (eq : T → T → Bool)
    (text : String) (w : W) :
  (fromString fromStr eq var text w).1.var.mVal = stored fromStr eq var.mVal text
  := by
  unfold fromString stored
  split
  case h_1 => rfl
  case h_2 v _ =>
    cases hv : eq v var.mVal with
    | true => simp [setValue_of_eq hv]
    | false => simp [setValue_of_ne hv h.setValue_thrown]

theorem NoThrow.fromString_var (h : var.NoThrow) (heq : ∀ x y, eq x y = true ↔ x = y)
    {fromStr : String → Option T} {text : String} {v : T} (hv : fromStr text = some v) :
  (fromString fromStr eq var text w).1.var = { var with mVal := v }
  := by
  simp [fromString, hv, h.setValue_var heq]

end ConfigVar

end WbServer
