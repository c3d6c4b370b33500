import WbServer.Log.Logger

/-!
# Live loggers

Seen from outside, a logger has a level, a formatter and a list of appenders; `Live` is
this view of all loggers. As long as no appender is attached to two loggers
(`LoggerManager.Wf`), the operations on a logger act on its view and leave those of the
other loggers unchanged.
-/

namespace WbServer

/-- A logger with its appenders in place. -/
structure LiveLogger where
  level : LogLevel
  formatter : LogFormatter
  appenders : List LogAppender

namespace LiveLogger

/-- The view of a new logger. -/
def new : LiveLogger where
  level := .debug
  formatter := LogFormatter.new Logger.defaultPattern
  appenders := []

/-- `Logger::set_level`. -/
def setLevel (l : LiveLogger) (val : LogLevel) : LiveLogger :=
  { l with level := val }

/-- `Logger::clear_appender`. -/
def clearAppender (l : LiveLogger) : LiveLogger :=
  { l with appenders := [] }

/-- `Logger::add_appender`. -/
def addAppender (l : LiveLogger) (a : LogAppender) : LiveLogger :=
  { l with appenders := l.appenders ++ [a.inherit l.formatter] }

/-- `Logger::set_formatter` for a formatter. -/
def setFormatter (l : LiveLogger) (val : LogFormatter) : LiveLogger :=
  { l with formatter := val, appenders := l.appenders.map fun a => a.follow val }

/-- `Logger::set_formatter` for a pattern. -/
def setPattern (l : LiveLogger) (val : String) : LiveLogger :=
  let new := LogFormatter.new val
  if new.mError then l else l.setFormatter new

end LiveLogger

/-- The second `Logger::set_formatter` with the same formatter changes nothing. -/
theorem LogAppender.follow_follow (a : LogAppender) (val : LogFormatter) :
  (a.follow val).follow val = a.follow val
  := by
  unfold LogAppender.follow
  split
  · simp_all
  · simp

namespace LoggerManager

/-- The view of the logger with the given name. -/
def live (s : LoggerManager) (name : String) : Option LiveLogger :=
  (s.mLoggers name).map fun l => ⟨l.mLevel, l.mFormatter, l.mAppenders.map s.heap⟩

/-- The appenders of the loggers have been constructed, and none is attached to two
loggers. -/
structure Wf (s : LoggerManager) : Prop where
  constructed : ∀ name l, s.mLoggers name = some l → ∀ ap ∈ l.mAppenders, ap < s.next
  separate : ∀ name name' l l', s.mLoggers name = some l → s.mLoggers name' = some l' →
    ∀ ap ∈ l.mAppenders, ap ∈ l'.mAppenders → name = name'

/-- A step from `s` to `s'` acts as `f` on the view of the logger `name`, and on no other. -/
structure ActsAs (name : String) (f : Option LiveLogger → Option LiveLogger)
    (s s' : LoggerManager) : Prop where
  wf : s'.Wf
  live : s'.live name = f (s.live name)
  others : ∀ name' ≠ name, s'.live name' = s.live name'

/-- Two operations on a logger, one behind the other. -/
theorem ActsAs.comp {name : String} {f g : Option LiveLogger → Option LiveLogger}
    {s s' s'' : LoggerManager} (hf : ActsAs name f s s') (hg : ActsAs name g s' s'') :
  ActsAs name (g ∘ f) s s''
  where
  wf := hg.wf
  live := by rw [hg.live, hf.live, Function.comp_apply]
  others name' hne := by rw [hg.others name' hne, hf.others name' hne]

/-- No operation. -/
theorem Wf.refl {s : LoggerManager} (h : s.Wf) (name : String) :
  ActsAs name id s s
  := ⟨h, rfl, fun _ _ => rfl⟩

/-- The logger `name` and its appenders are replaced; the appenders that were there are
kept or dropped, and at most one is constructed. -/
theorem Wf.replace {s s' : LoggerManager} (h : s.Wf) {name : String} (l : Logger)
    {f : Option LiveLogger → Option LiveLogger} (hnext : s.next ≤ s'.next)
    (hloggers : s'.mLoggers = Function.update s.mLoggers name (some l))
    (happenders : ∀ ap ∈ l.mAppenders,
      (∃ l₀, s.mLoggers name = some l₀ ∧ ap ∈ l₀.mAppenders) ∨ s.next ≤ ap ∧ ap < s'.next)
    (hheap : ∀ ap < s.next, (∀ l₀, s.mLoggers name = some l₀ → ap ∉ l₀.mAppenders) →
      s'.heap ap = s.heap ap)
    (hf : f (s.live name) = some ⟨l.mLevel, l.mFormatter, l.mAppenders.map s'.heap⟩) :
  ActsAs name f s s'
  := by
  have hself : s'.mLoggers name = some l := by simp [hloggers]
  have hne : ∀ name' ≠ name, s'.mLoggers name' = s.mLoggers name' := fun name' hne => by
    simp [hloggers, hne]
  -- an appender of another logger is no appender of this one
  have hother : ∀ name' ≠ name, ∀ l', s.mLoggers name' = some l' → ∀ ap ∈ l'.mAppenders,
      ap ∉ l.mAppenders := by
    intro name' hname l' hl' ap hap hap'
    obtain ⟨l₀, hl₀, hap₀⟩ | ⟨hle, -⟩ := happenders ap hap'
    · apply hname (h.separate name' name l' l₀ hl' hl₀ ap hap hap₀)
    · apply absurd (h.constructed name' l' hl' ap hap) hle.not_gt
  constructor
  case wf =>
    constructor
    case constructed =>
      intro name' l' hl' ap hap
      by_cases hname : name' = name
      · rw [hname, hself] at hl'
        obtain rfl := Option.some.inj hl'
        obtain ⟨l₀, hl₀, hap₀⟩ | ⟨-, hlt⟩ := happenders ap hap
        · apply Nat.lt_of_lt_of_le (h.constructed name l₀ hl₀ ap hap₀) hnext
        · apply hlt
      · rw [hne name' hname] at hl'
        apply Nat.lt_of_lt_of_le (h.constructed name' l' hl' ap hap) hnext
    case separate =>
      intro n₁ n₂ l₁ l₂ h₁ h₂ ap hap₁ hap₂
      by_cases hn₁ : n₁ = name
      · by_cases hn₂ : n₂ = name
        · rw [hn₁, hn₂]
        · rw [hn₁, hself] at h₁
          obtain rfl := Option.some.inj h₁
          rw [hne n₂ hn₂] at h₂
          apply absurd hap₁ (hother n₂ hn₂ l₂ h₂ ap hap₂)
      · rw [hne n₁ hn₁] at h₁
        by_cases hn₂ : n₂ = name
        · rw [hn₂, hself] at h₂
          obtain rfl := Option.some.inj h₂
          apply absurd hap₂ (hother n₁ hn₁ l₁ h₁ ap hap₁)
        · rw [hne n₂ hn₂] at h₂
          apply h.separate n₁ n₂ l₁ l₂ h₁ h₂ ap hap₁ hap₂
  case live =>
    rw [hf]
    simp [live, hself]
  case others =>
    intro name' hname
    rw [live, live, hne name' hname]
    cases hl' : s.mLoggers name' with
    | none => rfl
    | some l' =>
        have hmap : l'.mAppenders.map s'.heap = l'.mAppenders.map s.heap := by
          apply List.map_congr_left
          intro ap hap
          apply hheap ap (h.constructed name' l' hl' ap hap)
          intro l₀ hl₀ hap₀
          apply hname (h.separate name' name l' l₀ hl' hl₀ ap hap hap₀)
        simp [hmap]

theorem ActsAs.congr {name : String} {f g : Option LiveLogger → Option LiveLogger}
    {s s' : LoggerManager} (h : ActsAs name f s s') (hfg : f (s.live name) = g (s.live name)) :
  ActsAs name g s s'
  := ⟨h.wf, by rw [h.live, hfg], h.others⟩

theorem live_eq_none {s : LoggerManager} {name : String} (h : s.mLoggers name = none) :
  s.live name = none
  := by
  simp [live, h]

theorem live_eq_some {s : LoggerManager} {name : String} {l : Logger}
    (h : s.mLoggers name = some l) :
  s.live name = some ⟨l.mLevel, l.mFormatter, l.mAppenders.map s.heap⟩
  := by
  simp [live, h]

/-! ### The operations -/

/-- `get_logger` constructs a logger that does not exist. -/
theorem Wf.getLogger {s : LoggerManager} (h : s.Wf) (name : String) :
  ActsAs name (fun v => some (v.getD LiveLogger.new)) s (s.getLogger name)
  := by
  unfold LoggerManager.getLogger
  cases hl : s.mLoggers name with
  | some l =>
      apply (h.refl name).congr
      simp [live_eq_some hl]
  | none =>
      refine h.replace { Logger.new name with mRoot := some "root" } (Nat.le_refl _) rfl ?_ ?_ ?_
      · simp [Logger.new]
      · exact fun _ _ _ => rfl
      · simp [live_eq_none hl, Logger.new, LiveLogger.new]

/-- An operation that keeps the heap and attaches nothing. -/
theorem Wf.modify {s : LoggerManager} (h : s.Wf) (name : String) {f : Logger → Logger}
    {g : LiveLogger → LiveLogger} (happenders : ∀ l, (f l).mAppenders ⊆ l.mAppenders)
    (hg : ∀ l, ⟨(f l).mLevel, (f l).mFormatter, (f l).mAppenders.map s.heap⟩ =
      g ⟨l.mLevel, l.mFormatter, l.mAppenders.map s.heap⟩) :
  ActsAs name (Option.map g) s (s.modify name f)
  := by
  unfold LoggerManager.modify
  cases hl : s.mLoggers name with
  | none =>
      apply (h.refl name).congr
      simp [live_eq_none hl]
  | some l =>
      refine h.replace (f l) (Nat.le_refl _) rfl ?_ ?_ ?_
      · exact fun ap hap => .inl ⟨l, hl, happenders l hap⟩
      · exact fun _ _ _ => rfl
      · rw [live_eq_some hl, Option.map_some, ← hg]
        rfl

theorem Wf.setLevel {s : LoggerManager} (h : s.Wf) (name : String) (val : LogLevel) :
  ActsAs name (Option.map (·.setLevel val)) s (s.setLevel name val)
  := h.modify name (fun _ => List.Subset.refl _) fun _ => rfl

theorem Wf.clearAppender {s : LoggerManager} (h : s.Wf) (name : String) :
  ActsAs name (Option.map (·.clearAppender)) s (s.clearAppender name)
  := h.modify name (fun _ => List.nil_subset _) fun _ => rfl

/-- The appenders in the list follow, the others are left alone. -/
theorem followAll_apply (heap : AppenderId → LogAppender) (val : LogFormatter)
    (aps : List AppenderId) (ap : AppenderId) :
  followAll heap val aps ap = if ap ∈ aps then (heap ap).follow val else heap ap
  := by
  induction aps generalizing heap with
  | nil => simp [followAll]
  | cons a aps ih =>
      rw [followAll, ih]
      by_cases ha : ap = a
      · simp [ha, LogAppender.follow_follow]
      · simp [ha]

/-- `Logger::set_formatter` acts on its own logger only, as no appender is attached to two. -/
theorem Wf.setFormatter {s : LoggerManager} (h : s.Wf) (name : String) (val : LogFormatter) :
  ActsAs name (Option.map (·.setFormatter val)) s (s.setFormatter name val)
  := by
  unfold LoggerManager.setFormatter
  cases hl : s.mLoggers name with
  | none =>
      apply (h.refl name).congr
      simp [live_eq_none hl]
  | some l =>
      refine h.replace { l with mFormatter := val } (Nat.le_refl _) rfl ?_ ?_ ?_
      · exact fun ap hap => .inl ⟨l, hl, hap⟩
      · intro ap _ hap
        simp [set, followAll_apply, hap l hl]
      · have hmap : l.mAppenders.map (followAll s.heap val l.mAppenders) =
            (l.mAppenders.map s.heap).map fun a => a.follow val := by
          rw [List.map_map]
          apply List.map_congr_left
          intro ap hap
          simp [followAll_apply, hap]
        simp [live_eq_some hl, LiveLogger.setFormatter, set, hmap]

/-- `Logger::set_formatter` with a pattern does so too. -/
theorem Wf.setPattern {s : LoggerManager} (h : s.Wf) (name : String) (val : String) :
  ActsAs name (Option.map (·.setPattern val)) s (s.setPattern name val)
  := by
  simp only [LoggerManager.setPattern, LiveLogger.setPattern]
  cases herror : (LogFormatter.new val).mError with
  | true =>
      apply (h.refl name).congr
      simp
  | false => simpa using h.setFormatter name (LogFormatter.new val)

/-- A new appender belongs to no logger. -/
theorem Wf.newAppender {s : LoggerManager} (h : s.Wf) (name : String) (a : LogAppender) :
  ActsAs name id s (s.newAppender a)
  := by
  have hlive : ∀ name, (s.newAppender a).live name = s.live name := by
    intro name
    have hloggers : (s.newAppender a).mLoggers name = s.mLoggers name := rfl
    cases hl : s.mLoggers name with
    | none => rw [live_eq_none hl, live_eq_none (hloggers.trans hl)]
    | some l =>
        have hmap : l.mAppenders.map (Function.update s.heap s.next a) =
            l.mAppenders.map s.heap := by
          apply List.map_congr_left
          intro ap hap
          have hne : ap ≠ s.next := Nat.ne_of_lt (h.constructed name l hl ap hap)
          simp [hne]
        rw [live_eq_some hl, live_eq_some (hloggers.trans hl), ← hmap]
        rfl
  refine ⟨⟨fun n l hl ap hap => ?_, h.separate⟩, hlive name, fun name' _ => hlive name'⟩
  apply Nat.lt_succ_of_lt (h.constructed n l hl ap hap)

/-- A new appender is attached. -/
theorem Wf.attach {s : LoggerManager} (h : s.Wf) (name : String) (a : LogAppender) :
  ActsAs name (Option.map (·.addAppender a)) s ((s.newAppender a).addAppender name s.next)
  := by
  have hloggers : (s.newAppender a).mLoggers = s.mLoggers := rfl
  unfold LoggerManager.addAppender
  rw [hloggers]
  cases hl : s.mLoggers name with
  | none =>
      apply (h.newAppender name a).congr
      simp [live_eq_none hl]
  | some l =>
      refine h.replace { l with mAppenders := l.mAppenders ++ [s.next] } (Nat.le_succ _) rfl
        ?_ ?_ ?_
      · intro ap hap
        obtain hap | hap := List.mem_append.mp hap
        · exact .inl ⟨l, hl, hap⟩
        · obtain rfl := List.mem_singleton.mp hap
          exact .inr ⟨Nat.le_refl _, Nat.lt_succ_self _⟩
      · intro ap hlt _
        have hne : ap ≠ s.next := Nat.ne_of_lt hlt
        simp [set, LoggerManager.newAppender, hne]
      · have hmap : ∀ b, l.mAppenders.map (Function.update s.heap s.next b) =
            l.mAppenders.map s.heap := by
          intro b
          apply List.map_congr_left
          intro ap hap
          have hne : ap ≠ s.next := Nat.ne_of_lt (h.constructed name l hl ap hap)
          simp [hne]
        simp [live_eq_some hl, LiveLogger.addAppender, set, LoggerManager.newAppender, hmap]

/-! ### The manager at the start of the program -/

/-- The root logger with its appender. -/
theorem new_mLoggers {name : String} {l : Logger} (hl : new.mLoggers name = some l) :
  name = "root" ∧ l = { Logger.new "root" with mAppenders := [0] }
  := by
  by_cases hname : name = "root"
  · subst hname
    exact ⟨rfl, (Option.some.inj hl).symm⟩
  · simp [new, addAppender, newAppender, set, hname] at hl

/-- At first no appender is attached to two loggers. -/
theorem new_wf :
  new.Wf
  := by
  constructor
  case constructed =>
    intro name l hl ap hap
    obtain ⟨-, rfl⟩ := new_mLoggers hl
    obtain rfl := List.mem_singleton.mp hap
    apply Nat.zero_lt_one
  case separate =>
    intro name name' l l' hl hl' ap _ _
    rw [(new_mLoggers hl).1, (new_mLoggers hl').1]

end LoggerManager

end WbServer
