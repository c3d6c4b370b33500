import WbServer.Log.Logger
import WbServer.Base.Transition

/-!
# Runs of the logging interface

The operations that a program performs on loggers and appenders, in any order, and what
`Logger::log` writes in a state they lead to. `LoggerManager.step_cases` says what an
operation does to the appenders that are attached to a logger and to their formatters.
-/

namespace WbServer

/-- The number of a level, by which levels are compared. -/
def LogLevel.toNat : LogLevel → ℕ
  | .unknow => 0
  | .debug => 1
  | .info => 2
  | .warn => 3
  | .error => 4
  | .fatal => 5

/-! ### Writing a record -/

/-- `StdoutLogAppender::log` and `FileLogAppender::log`: the text that is written. The
formatter is dereferenced without a test: `none` stands for a null pointer. -/
def LogAppender.log (strftime : Strftime) (a : LogAppender) (level : LogLevel)
    (event : LogEvent) : Option String :=
  if a.mLevel.toNat ≤ level.toNat then a.mFormatter.map fun f => f.format strftime level event
  else some ""

namespace LoggerManager

/-- The appenders whose `log` is called by `Logger::log` of the logger `name`, along at most
`depth` links `m_root`. -/
def reached (s : LoggerManager) (level : LogLevel) : ℕ → String → List AppenderId
  | 0, _ => []
  | depth + 1, name =>
      match s.mLoggers name with
      | none => []
      | some l =>
          if l.mLevel.toNat ≤ level.toNat then
            if l.mAppenders = [] then
              match l.mRoot with
              | none => []
              | some root => reached s level depth root
            else l.mAppenders
          else []

/-- `Logger::log`: the texts that the appenders write. -/
def log (strftime : Strftime) (s : LoggerManager) (depth : ℕ) (name : String)
    (level : LogLevel) (event : LogEvent) : Option (List String) :=
  (s.reached level depth name).mapM fun ap => (s.heap ap).log strftime level event

/-- `Logger::del_appender`: the first entry of the appender is erased. -/
def delAppender (s : LoggerManager) (name : String) (ap : AppenderId) : LoggerManager :=
  s.modify name fun l => { l with mAppenders := l.mAppenders.erase ap }

/-- Changes an appender. -/
def modifyAppender (s : LoggerManager) (ap : AppenderId) (f : LogAppender → LogAppender) :
    LoggerManager :=
  { s with heap := Function.update s.heap ap (f (s.heap ap)) }

/-- `LogAppender::set_formatter` of an appender. -/
def setAppenderFormatter (s : LoggerManager) (ap : AppenderId) (val : Option LogFormatter) :
    LoggerManager :=
  s.modifyAppender ap fun a => a.setFormatter val

/-- `LogAppender::set_level` of an appender. -/
def setAppenderLevel (s : LoggerManager) (ap : AppenderId) (val : LogLevel) : LoggerManager :=
  s.modifyAppender ap fun a => { a with mLevel := val }

end LoggerManager

/-! ### Operations -/

/-- The operations of a program: it obtains loggers, constructs appenders, and calls their
member functions. A null formatter can be given to an appender only. -/
inductive Operation where
  | getLogger (name : String)
  | newAppender (kind : LogAppender.Kind)
  | addAppender (name : String) (ap : AppenderId)
  | delAppender (name : String) (ap : AppenderId)
  | clearAppender (name : String)
  | setLevel (name : String) (val : LogLevel)
  | setFormatter (name : String) (val : LogFormatter)
  | setPattern (name : String) (val : String)
  | setAppenderFormatter (ap : AppenderId) (val : Option LogFormatter)
  | setAppenderLevel (ap : AppenderId) (val : LogLevel)

namespace Operation

/-- The logger and the appender the operation is about have been obtained. -/
def Exists (s : LoggerManager) : Operation → Prop
  | .getLogger _ => True
  | .newAppender _ => True
  | .addAppender name ap => (s.mLoggers name).isSome ∧ ap < s.next
  | .delAppender name ap => (s.mLoggers name).isSome ∧ ap < s.next
  | .clearAppender name => (s.mLoggers name).isSome
  | .setLevel name _ => (s.mLoggers name).isSome
  | .setFormatter name _ => (s.mLoggers name).isSome
  | .setPattern name _ => (s.mLoggers name).isSome
  | .setAppenderFormatter ap _ => ap < s.next
  | .setAppenderLevel ap _ => ap < s.next

instance (s : LoggerManager) : (op : Operation) → Decidable (op.Exists s)
  | .getLogger _ => inferInstanceAs (Decidable True)
  | .newAppender _ => inferInstanceAs (Decidable True)
  | .addAppender _ _ => inferInstanceAs (Decidable (_ ∧ _))
  | .delAppender _ _ => inferInstanceAs (Decidable (_ ∧ _))
  | .clearAppender _ => inferInstanceAs (Decidable (_ = true))
  | .setLevel _ _ => inferInstanceAs (Decidable (_ = true))
  | .setFormatter _ _ => inferInstanceAs (Decidable (_ = true))
  | .setPattern _ _ => inferInstanceAs (Decidable (_ = true))
  | .setAppenderFormatter ap _ => inferInstanceAs (Decidable (ap < s.next))
  | .setAppenderLevel ap _ => inferInstanceAs (Decidable (ap < s.next))

/-- What the operation does. -/
def apply : Operation → LoggerManager → LoggerManager
  | .getLogger name, s => s.getLogger name
  | .newAppender kind, s => s.newAppender { kind := kind }
  | .addAppender name ap, s => s.addAppender name ap
  | .delAppender name ap, s => s.delAppender name ap
  | .clearAppender name, s => s.clearAppender name
  | .setLevel name val, s => s.setLevel name val
  | .setFormatter name val, s => s.setFormatter name val
  | .setPattern name val, s => s.setPattern name val
  | .setAppenderFormatter ap val, s => s.setAppenderFormatter ap val
  | .setAppenderLevel ap val, s => s.setAppenderLevel ap val

end Operation

namespace LoggerManager

/-- The transition system of the logging interface. -/
def system : Transition.System LoggerManager Operation where
  init s := s = new
  step op s := if op.Exists s then some (op.apply s) else none

@[simp]
theorem set_self (s : LoggerManager) (name : String) (l : Logger) :
  (s.set name l).mLoggers name = some l
  := Function.update_self ..

@[simp]
theorem set_of_ne (s : LoggerManager) {name name' : String} (h : name' ≠ name) (l : Logger) :
  (s.set name l).mLoggers name' = s.mLoggers name'
  := Function.update_of_ne h ..

/-- The appender is attached to the logger `name`, which is `l`. -/
structure Attached (s : LoggerManager) (name : String) (l : Logger) (ap : AppenderId) :
    Prop where
  logger : s.mLoggers name = some l
  mem : ap ∈ l.mAppenders

/-- The appenders attached in `s'` were attached in `s`, to a logger with the same
formatter, and have kept their own formatter. -/
structure Keeps (s s' : LoggerManager) : Prop where
  next : s.next ≤ s'.next
  attached : ∀ name l' ap, s'.Attached name l' ap →
    ∃ l, s.Attached name l ap ∧ l'.mFormatter = l.mFormatter
  formatter : ∀ ap < s.next, (s'.heap ap).mFormatter = (s.heap ap).mFormatter ∧
    (s'.heap ap).mHasFormatter = (s.heap ap).mHasFormatter

theorem Keeps.refl (s : LoggerManager) :
  Keeps s s
  := ⟨le_rfl, fun _ l _ h => ⟨l, h, rfl⟩, fun _ _ => ⟨rfl, rfl⟩⟩

/-- A new logger has no appenders. -/
theorem Keeps.getLogger (s : LoggerManager) (name : String) :
  Keeps s (s.getLogger name)
  := by
  unfold LoggerManager.getLogger
  split
  case h_1 => apply Keeps.refl
  case h_2 =>
    constructor
    case next => apply le_rfl
    case formatter => exact fun _ _ => ⟨rfl, rfl⟩
    case attached =>
      rintro name' l' ap ⟨hl', hap⟩
      by_cases hname : name' = name
      · -- a new logger has no appenders
        rw [hname, set_self] at hl'
        obtain rfl := Option.some.inj hl'
        simp [Logger.new] at hap
      · rw [set_of_ne s hname] at hl'
        use l'
        exact ⟨⟨hl', hap⟩, rfl⟩

/-- A change of a logger that keeps its formatter and attaches nothing. -/
theorem Keeps.modify (s : LoggerManager) (name : String) {f : Logger → Logger}
    (happenders : ∀ l, (f l).mAppenders ⊆ l.mAppenders)
    (hformatter : ∀ l, (f l).mFormatter = l.mFormatter) :
  Keeps s (s.modify name f)
  := by
  unfold LoggerManager.modify
  split
  case h_1 => apply Keeps.refl
  case h_2 l hl =>
    constructor
    case next => apply le_rfl
    case formatter => exact fun _ _ => ⟨rfl, rfl⟩
    case attached =>
      rintro name' l' ap ⟨hl', hap⟩
      by_cases hname : name' = name
      · subst hname
        rw [set_self] at hl'
        obtain rfl := Option.some.inj hl'
        use l
        exact ⟨⟨hl, happenders l hap⟩, hformatter l⟩
      · rw [set_of_ne s hname] at hl'
        use l'
        exact ⟨⟨hl', hap⟩, rfl⟩

/-- A new appender is not attached. -/
theorem Keeps.newAppender (s : LoggerManager) (a : LogAppender) :
  Keeps s (s.newAppender a)
  where
  next := Nat.le_succ _
  attached _ l _ h := ⟨l, ⟨h.logger, h.mem⟩, rfl⟩
  formatter ap hap := by simp [LoggerManager.newAppender, Nat.ne_of_lt hap]

/-- The level of an appender does not matter for its formatter. -/
theorem Keeps.setAppenderLevel (s : LoggerManager) (ap : AppenderId) (val : LogLevel) :
  Keeps s (s.setAppenderLevel ap val)
  where
  next := le_rfl
  attached _ l _ h := ⟨l, ⟨h.logger, h.mem⟩, rfl⟩
  formatter ap' _ := by
    by_cases hap : ap' = ap
    · simp [LoggerManager.setAppenderLevel, modifyAppender, hap]
    · simp [LoggerManager.setAppenderLevel, modifyAppender, hap]

/-- What an operation does to the attached appenders and to formatters: it attaches an
appender, gives a logger or an appender a formatter, or keeps them. -/
theorem step_cases {op : Operation} {s s' : LoggerManager} (h : system.step op s = some s') :
  (∃ name ap l, op = .addAppender name ap ∧ s.mLoggers name = some l ∧ ap < s.next ∧
      s' = s.addAppender name ap) ∨
    (∃ ap val, op = .setAppenderFormatter ap val ∧ ap < s.next ∧
      s' = s.setAppenderFormatter ap val) ∨
    (∀ name ap, op ≠ .addAppender name ap) ∧ (∀ ap val, op ≠ .setAppenderFormatter ap val) ∧
      ((∃ name val l, s.mLoggers name = some l ∧ s' = s.setFormatter name val) ∨ Keeps s s')
  := by
  simp only [system] at h
  split at h
  case isFalse => cases h
  case isTrue hexists =>
    obtain rfl := Option.some.inj h
    cases op with
    | addAppender name ap =>
        obtain ⟨hl, hap⟩ := hexists
        obtain ⟨l, hl⟩ := Option.isSome_iff_exists.mp hl
        exact .inl ⟨name, ap, l, rfl, hl, hap, rfl⟩
    | setAppenderFormatter ap val => exact .inr (.inl ⟨ap, val, rfl, hexists, rfl⟩)
    | setFormatter name val =>
        obtain ⟨l, hl⟩ := Option.isSome_iff_exists.mp hexists
        exact .inr (.inr ⟨nofun, nofun, .inl ⟨name, val, l, hl, rfl⟩⟩)
    | setPattern name val =>
        obtain ⟨l, hl⟩ := Option.isSome_iff_exists.mp hexists
        refine .inr (.inr ⟨nofun, nofun, ?_⟩)
        simp only [Operation.apply, setPattern]
        split
        · exact .inr (.refl s)
        · exact .inl ⟨name, _, l, hl, rfl⟩
    | getLogger name => exact .inr (.inr ⟨nofun, nofun, .inr (.getLogger s name)⟩)
    | newAppender kind => exact .inr (.inr ⟨nofun, nofun, .inr (.newAppender s _)⟩)
    | setAppenderLevel ap val =>
        exact .inr (.inr ⟨nofun, nofun, .inr (.setAppenderLevel s ap val)⟩)
    | delAppender name ap =>
        refine .inr (.inr ⟨nofun, nofun, .inr (.modify s name (fun l => ?_) fun _ => rfl)⟩)
        apply List.erase_subset
    | clearAppender name =>
        refine .inr (.inr ⟨nofun, nofun, .inr (.modify s name (fun l => ?_) fun _ => rfl)⟩)
        apply List.nil_subset
    | setLevel name val =>
        refine .inr (.inr ⟨nofun, nofun, .inr (.modify s name (fun l => ?_) fun _ => rfl)⟩)
        apply List.Subset.refl

end LoggerManager

end WbServer
