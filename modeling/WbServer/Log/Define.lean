import Mathlib.Data.String.Basic
import WbServer.Log.Level
import WbServer.Base.OrderedSet
import WbServer.Config.Var

/-!
# The logs configuration

The value of `g_log_defines` is a set of `LogDefine`, ordered by the name of the logger.
`LogDefine::operator==` compares `appenders` of the left operand with itself, so that two
configurations are equal for `set_value` as soon as they agree in the names, levels and
formatters (`LogDefines.eq_iff`). `LogDefines.setValue_applied_iff` says which changes are
dropped for it.
-/

namespace WbServer

/-- `LogAppenderDefine`. -/
structure LogAppenderDefine where
  type : ℤ := 0
  level : LogLevel := .unknow
  formatter : String := ""
  file : String := ""
  deriving DecidableEq

/-- `LogAppenderDefine::operator==`. -/
def LogAppenderDefine.eq (a oth : LogAppenderDefine) : Bool :=
  a.type = oth.type && a.level = oth.level && a.formatter = oth.formatter && a.file = oth.file

/-- `LogDefine`. -/
structure LogDefine where
  name : String
  level : LogLevel := .unknow
  formatter : String := ""
  appenders : List LogAppenderDefine := []
  deriving DecidableEq

/-- `LogDefine::operator==`. Its last operand is `appenders == appenders`. -/
def LogDefine.eq (d oth : LogDefine) : Bool :=
  d.name = oth.name && d.level = oth.level && d.formatter = oth.formatter &&
    d.appenders.isEqv d.appenders LogAppenderDefine.eq

/-- `std::set<LogDefine>`, ordered by `LogDefine::operator<`. -/
abbrev LogDefines : Type := OrderedSet LogDefine.name

/-- `operator==` of `std::set<LogDefine>`. -/
def LogDefines.eq (s t : LogDefines) : Bool :=
  s.equal LogDefine.eq t

/-- What `LogDefine::operator==` looks at: the name, the level and the formatter. -/
def LogDefine.head (d : LogDefine) : String × LogLevel × String :=
  (d.name, d.level, d.formatter)

/-- The comparison of appenders is their equality. -/
theorem LogAppenderDefine.eq_iff {a oth : LogAppenderDefine} :
  a.eq oth = true ↔ a = oth
  := by
  cases a
  cases oth
  simp [LogAppenderDefine.eq, and_assoc]

/-- The appenders play no role. -/
theorem LogDefine.eq_iff {d oth : LogDefine} :
  d.eq oth = true ↔ d.head = oth.head
  := by
  have happenders : d.appenders.isEqv d.appenders LogAppenderDefine.eq = true := by
    rw [OrderedSet.isEqv_iff_forall₂]
    apply List.forall₂_same.mpr fun a _ => LogAppenderDefine.eq_iff.mpr rfl
  simp [LogDefine.eq, LogDefine.head, happenders, and_assoc]

namespace LogDefines

/-- The names, levels and formatters of a configuration. -/
def heads (s : LogDefines) : List (String × LogLevel × String) :=
  s.toList.map LogDefine.head

/-- The comparison of two sets looks at the names, levels and formatters only. -/
theorem eq_iff {s t : LogDefines} :
  s.eq t = true ↔ s.heads = t.heads
  := by
  apply OrderedSet.equal_iff_map_eq
  exact fun _ _ => LogDefine.eq_iff

theorem eq_false {s t : LogDefines} (h : t.heads ≠ s.heads) :
  s.eq t = false
  := by
  rw [Bool.eq_false_iff, ne_eq, eq_iff]
  exact fun heq => h heq.symm

variable {W ε : Type} (old v : LogDefines) (cbs : List (ℕ × Listener LogDefines W ε)) (w : W)

/-- The call `set_value(v)` of a variable with the value `old`. -/
def setValue : ConfigVar.Update LogDefines W ε :=
  ConfigVar.setValue LogDefines.eq { mVal := old, mCbs := cbs } v w

variable {old v}

/-- A value with the same names, levels and formatters is dropped. -/
theorem setValue_of_heads_eq (h : old.heads = v.heads) :
  setValue old v cbs w =
    { var := { mVal := old, mCbs := cbs }, world := w, calls := [], thrown := none }
  := ConfigVar.setValue_of_eq (eq_iff.mpr h.symm)

/-- Unless a listener throws, any other value is stored and all listeners are called. -/
theorem setValue_of_heads_ne (h : old.heads ≠ v.heads)
    (hthrown : (setValue old v cbs w).thrown = none) :
  setValue old v cbs w =
    { var := { mVal := v, mCbs := cbs }
      world := (ConfigVar.notify old v cbs w).1
      calls := cbs.map Prod.fst
      thrown := none }
  := ConfigVar.setValue_of_ne (eq_false h) hthrown

/-- Sets with the same heads have the same names, levels and formatters. -/
theorem find?_heads_eq (h : old.heads = v.heads) (name : String) :
  (old.find? name).map LogDefine.head = (v.find? name).map LogDefine.head
  := by
  apply OrderedSet.find?_map_eq LogDefine.head _ h
  exact fun _ _ hhead => congrArg Prod.fst hhead

variable (old v)

/-- Unless a listener throws, the stored value is the new one, and the listeners have been
called exactly if the two values differ. -/
structure Applied : Prop where
  stored : (setValue old v cbs w).thrown = none → (setValue old v cbs w).var.mVal = v
  called : (setValue old v cbs w).thrown = none → old ≠ v →
    (setValue old v cbs w).calls = cbs.map Prod.fst
  notCalled : old = v → (setValue old v cbs w).calls = []

/-- A `set_value` is applied if and only if the two values are equal or differ in the names,
the levels or the formatters of their loggers. -/
theorem setValue_applied_iff :
  Applied old v cbs w ↔ old = v ∨ old.heads ≠ v.heads
  := by
  by_cases hheads : old.heads = v.heads
  · have hset := setValue_of_heads_eq cbs w hheads
    simp only [hheads, ne_eq, not_true, or_false]
    constructor
    · intro h
      have hstored := h.stored (by rw [hset])
      rwa [hset] at hstored
    · intro heq
      constructor
      case stored =>
        intro _
        rw [hset, heq]
      case called => exact fun _ hne => absurd heq hne
      case notCalled => simp [hset]
  · have hne : old ≠ v := fun h => hheads (congrArg heads h)
    simp only [ne_eq, hheads, not_false_iff, or_true, iff_true]
    constructor
    case stored =>
      intro hthrown
      rw [setValue_of_heads_ne cbs w hheads hthrown]
    case called =>
      intro hthrown _
      rw [setValue_of_heads_ne cbs w hheads hthrown]
    case notCalled => exact fun h => absurd h hne

/-- One logger `a` with one appender. -/
def ofAppender (a : LogAppenderDefine) : LogDefines :=
  ⟨[{ name := "a", level := .debug, appenders := [a] }], List.pairwise_singleton _ _⟩

/-- A reload that only replaces the file of an appender is dropped. -/
theorem setValue_drops_appenders :
  let old := ofAppender { type := 1, file := "a.txt" }
  let v := ofAppender { type := 1, file := "b.txt" }
  let r := setValue old v [(1, fun _ _ (w : ℕ) => (w + 1, (none : Option Empty)))] 0
  r.thrown = none ∧ r.var.mVal.toList ≠ v.toList ∧ r.calls = [] ∧ r.world = 0
  := by
  decide

end LogDefines

end WbServer
