import WbServer.Log.Document
import WbServer.Log.Program

/-!
# Programs that are only configured

If a program obtains its loggers from configurations only, then every appender has a formatter
of its own that was accepted, or the present formatter of its logger. `Logs.run_log` says
what a record is written as.
-/

namespace WbServer

/-! ### Loggers of a configured program -/

/-- An appender with an accepted formatter of its own, or with the formatter of its
logger. -/
def LogAppender.Regular (formatter : LogFormatter) (a : LogAppender) : Prop :=
  (∃ p, Usable p ∧ a.mFormatter = some (LogFormatter.new p) ∧ a.mHasFormatter = true) ∨
    a.mFormatter = some formatter ∧ a.mHasFormatter = false

/-- A logger with an accepted formatter and regular appenders. -/
structure LiveLogger.Regular (l : LiveLogger) : Prop where
  formatter : ∃ p, Usable p ∧ l.formatter = LogFormatter.new p
  appenders : ∀ a ∈ l.appenders, a.Regular l.formatter

theorem LiveLogger.new_regular :
  new.Regular
  := ⟨⟨Logger.defaultPattern, by decide, rfl⟩, nofun⟩

/-- An appender that is constructed for a definition. -/
theorem LogAppenderDefine.regular {d : LogAppenderDefine} {formatter : LogFormatter}
    {a : LogAppender} (h : d.live formatter = some a) :
  a.Regular formatter
  := by
  obtain ⟨b, hb, rfl⟩ := Option.map_eq_some_iff.mp h
  obtain ⟨kind, -, rfl⟩ := Option.map_eq_some_iff.mp hb
  by_cases hempty : d.formatter = ""
  · right
    simp [hempty, LogAppender.inherit]
  · cases herror : (LogFormatter.new d.formatter).mError with
    | true =>
        right
        simp [hempty, herror, LogAppender.inherit]
    | false =>
        left
        use d.formatter, ⟨hempty, herror⟩
        simp [hempty, herror, LogAppender.setFormatter, LogAppender.inherit]

/-- The definition of a logger leaves its appenders regular. -/
theorem LiveLogger.Configured.regular {i : LogDefine} {l l' : LiveLogger}
    (h : Configured i l l') (hl : l.Regular) :
  l'.Regular
  := by
  constructor
  case formatter =>
    rw [h.formatter, LogFormatter.orKeep]
    split
    case isTrue husable => exact ⟨i.formatter, husable, rfl⟩
    case isFalse => apply hl.formatter
  case appenders =>
    intro a ha
    obtain ⟨d, -, hd⟩ := mem_of_mapM_eq_some h.appenders ha
    apply LogAppenderDefine.regular hd

/-- All live loggers are regular. -/
def LoggerManager.Regular (s : LoggerManager) : Prop :=
  ∀ name l, s.live name = some l → l.Regular

namespace Logs

theorem start_regular :
  start.manager.Regular
  := by
  intro name l hl
  obtain ⟨l', hl', rfl⟩ := Option.map_eq_some_iff.mp hl
  obtain ⟨-, rfl⟩ := LoggerManager.new_mLoggers hl'
  constructor
  case formatter => exact LiveLogger.new_regular.formatter
  case appenders =>
    intro a ha
    obtain rfl := List.mem_singleton.mp ha
    exact .inr ⟨rfl, rfl⟩

/-- A logger that does not exist yet is regular as a new one. -/
theorem regular_getD {s : Logs} (h : s.manager.Regular) (name : String) :
  ((s.manager.live name).getD LiveLogger.new).Regular
  := by
  cases hl : s.manager.live name with
  | none => apply LiveLogger.new_regular
  | some l => apply h name l hl

/-- A stored configuration leaves all loggers regular. -/
theorem setValue_regular {s s' : Logs} {v : LogDefines} (hwf : s.manager.Wf)
    (h : s.manager.Regular) (hset : s.setValue v = some s') :
  s'.manager.Regular
  := by
  obtain ⟨-, heffect⟩ := setValue_effect hwf hset
  intro name l hl
  cases heffect name with
  | kept d i hd hi hhead hstored hlive =>
      rw [hlive] at hl
      apply h name l hl
  | configured i l' hi hstored hlive hconfigured =>
      obtain rfl := Option.some.inj (hlive.symm.trans hl)
      apply hconfigured.regular (regular_getD h name)
  | reset d hd hv hstored hlive =>
      obtain rfl := Option.some.inj (hlive.symm.trans hl)
      exact ⟨(regular_getD h name).formatter, nofun⟩
  | absent hs hv hstored hlive =>
      rw [hlive] at hl
      apply h name l hl

/-- Behind any history all loggers are regular. -/
theorem run_regular {vs : List LogDefines} {s : Logs} (hrun : start.run vs = some s) :
  s.manager.Regular
  := by
  induction vs using List.reverseRecOn generalizing s with
  | nil =>
      obtain rfl : start = s := by simpa [run] using hrun
      apply start_regular
  | append_singleton vs v ih =>
      obtain ⟨t, ht, hv⟩ := run_append.mp hrun
      have hwf := (run_tracksName start_initial ht "").wf
      apply setValue_regular hwf (ih ht) (by simpa [run] using hv)

/-- A configured program is a program. -/
theorem run_reachable {vs : List LogDefines} {s : Logs} (hrun : start.run vs = some s) :
  Program.system.Reachable s
  := by
  induction vs using List.reverseRecOn generalizing s with
  | nil =>
      obtain rfl : start = s := by simpa [run] using hrun
      apply Transition.System.Reaches.init rfl
  | append_singleton vs v ih =>
      obtain ⟨t, ht, hv⟩ := run_append.mp hrun
      have hset : t.setValue v = some s := by simpa [run] using hv
      have hstep : Program.system.step (.setValue v) t = some s := hset
      apply (ih ht).step trivial hstep

end Logs

/-! ### What is written -/

/-- The formatter of an appender that has its own. -/
def LogAppender.own (a : LogAppender) : Option LogFormatter :=
  if a.mHasFormatter then a.mFormatter else none

/-- What the appenders of a logger write for a record. -/
def LiveLogger.texts (strftime : Strftime) (l : LiveLogger) (level : LogLevel)
    (event : LogEvent) : List String :=
  if l.level.toNat ≤ level.toNat then
    l.appenders.map fun a =>
      if a.mLevel.toNat ≤ level.toNat then
        (a.own.getD l.formatter).format strftime level event
      else ""
  else []

namespace LoggerManager

/-- The appenders of a logger write its texts. -/
theorem Regular.mapM_passed {s : LoggerManager} (h : s.Regular) (strftime : Strftime)
    {name : String} {l : Logger} (hl : s.mLoggers name = some l) (level : LogLevel)
    (event : LogEvent) :
  ((s.passed level name).mapM fun ap => (s.heap ap).log strftime level event) =
    some (LiveLogger.texts strftime ⟨l.mLevel, l.mFormatter, l.mAppenders.map s.heap⟩ level event)
  := by
  have hregular := (h name _ (live_eq_some hl)).appenders
  by_cases hlevel : l.mLevel.toNat ≤ level.toNat
  · simp only [passed, hl, hlevel, if_true, LiveLogger.texts, List.map_map]
    apply mapM_eq_some_map
    intro ap hap
    unfold LogAppender.log
    split
    case isFalse hlow => simp [hlow]
    case isTrue hhigh =>
      obtain ⟨p, -, hformatter, hhas⟩ | ⟨hformatter, hhas⟩ :=
        hregular (s.heap ap) (List.mem_map_of_mem hap)
      · simp [hhigh, LogAppender.own, hformatter, hhas]
      · simp [hhigh, LogAppender.own, hformatter, hhas]
  · simp [passed, hl, hlevel, LiveLogger.texts]

end LoggerManager

namespace Logs

/-- In a program that is only configured, a record of a logger is written by the appenders of
the logger, or, if it lets the record pass but has none, by those of `root`: each with its own
accepted formatter, or else with the present formatter of the logger it is attached to. No
formatter is a null pointer. -/
theorem run_log (strftime : Strftime) {vs : List LogDefines} {s : Logs}
    (hrun : start.run vs = some s) {name : String} {l : LiveLogger}
    (hl : s.manager.live name = some l) (level : LogLevel) (event : LogEvent) (depth : ℕ) :
  ∃ r, s.manager.live "root" = some r ∧
    s.manager.log strftime (depth + 2) name level event =
      some (if l.level.toNat ≤ level.toNat ∧ l.appenders = [] ∧ name ≠ "root" then
        r.texts strftime level event
      else l.texts strftime level event)
  := by
  have hreachable := run_reachable hrun
  have hregular := run_regular hrun
  have hrooted := LoggerManager.reachable_rooted (Program.reachable_manager hreachable)
  obtain ⟨r, hr, -⟩ := Option.map_eq_some_iff.mp hrooted.root
  obtain ⟨lg, hlg, rfl⟩ := Option.map_eq_some_iff.mp hl
  refine ⟨_, LoggerManager.live_eq_some hr, ?_⟩
  rw [LoggerManager.log, Program.reached_dispatch hreachable hlg]
  simp only [List.map_eq_nil_iff]
  split
  · apply hregular.mapM_passed strftime hr
  · apply hregular.mapM_passed strftime hlg

theorem run_log_replaced :
  ∃ s r, start.run [ofDefine loggerA, ofDefine loggerB] = some s ∧
    s.manager.live "root" = some r ∧
    s.manager.log .epoch 2 "b" .error ⟨"b", "", 0, 0, 0, 0, 0, "", "failed"⟩ =
      some (r.texts .epoch .error ⟨"b", "", 0, 0, 0, 0, 0, "", "failed"⟩)
  := by
  have hrun : start.run [ofDefine loggerA, ofDefine loggerB] =
      some (after [ofDefine loggerA, ofDefine loggerB]) := rfl
  have hview : ((after [ofDefine loggerA, ofDefine loggerB]).manager.live "b").map
      (fun l => (l.level, l.appenders)) = some (.warn, []) := rfl
  obtain ⟨l, hl, hviews⟩ := Option.map_eq_some_iff.mp hview
  obtain ⟨hlevel, happenders⟩ := Prod.mk.inj hviews
  obtain ⟨r, hr, hlog⟩ := run_log .epoch hrun hl .error
    ⟨"b", "", 0, 0, 0, 0, 0, "", "failed"⟩ 0
  refine ⟨_, r, hrun, hr, ?_⟩
  rw [hlog, if_pos]
  rw [hlevel]
  exact ⟨by decide, happenders, by decide⟩

end Logs

end WbServer
