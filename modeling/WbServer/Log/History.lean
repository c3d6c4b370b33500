import WbServer.Log.Initer

/-!
# Histories of the logs configuration

A history is a sequence of calls of `set_value` on `g_log_defines`, with the listener of
`LogIniter` as the only listener. In every state that a history reaches, the levels and
the accepted formatters of the stored value are those of the live loggers, and removed
loggers are reset (`Logs.run_tracks`).

The live loggers are not determined by the last value: a logger keeps its formatter when
its definition has none, and appenders are not replaced when nothing else changes.
`Logs.lastPattern` and `Logs.Steady` say what of the history they depend on
(`Logs.runs_agree`).
-/

namespace WbServer

/-- What can be seen of an appender: its type and file, its level, and the pattern of the
formatter it uses. -/
def LogAppender.view (a : LogAppender) : LogAppender.Kind × LogLevel × Option String :=
  (a.kind, a.mLevel, a.mFormatter.map LogFormatter.mPattern)

/-- `g_log_defines` and the loggers. -/
structure Logs where
  defines : LogDefines
  manager : LoggerManager

namespace Logs

/-- The listener of `LogIniter`. It does not return if it uses a null pointer. -/
def listener : Listener LogDefines LoggerManager Unit :=
  fun oldValue newValue s =>
    match s.onChange oldValue newValue with
    | some s' => (s', none)
    | none => (s, some ())

/-- `g_log_defines->set_value(v)`. -/
def setValue (s : Logs) (v : LogDefines) : Option Logs :=
  let r := LogDefines.setValue s.defines v [(1, listener)] s.manager
  match r.thrown with
  | none => some { defines := r.var.mVal, manager := r.world }
  | some _ => none

/-- The calls of a history. -/
def run (s : Logs) (vs : List LogDefines) : Option Logs :=
  vs.foldlM setValue s

/-- The empty configuration and loggers with the default formatter. -/
structure Initial (s : Logs) : Prop where
  defines : s.defines = OrderedSet.empty LogDefine.name
  wf : s.manager.Wf
  formatter : ∀ name l, s.manager.live name = some l →
    l.formatter = LogFormatter.new Logger.defaultPattern

/-- The state at the start of the program. -/
def start : Logs where
  defines := OrderedSet.empty LogDefine.name
  manager := LoggerManager.new

theorem start_initial :
  Initial start
  := by
  refine ⟨rfl, LoggerManager.new_wf, fun name l hl => ?_⟩
  obtain ⟨l', hl', rfl⟩ := Option.map_eq_some_iff.mp hl
  obtain ⟨-, rfl⟩ := LoggerManager.new_mLoggers hl'
  rfl

/-! ### One call -/

/-- A call is dropped, or its value is stored and the listener has done its work. -/
theorem setValue_cases {s s' : Logs} {v : LogDefines} (h : s.setValue v = some s') :
  s.defines.heads = v.heads ∧ s' = s ∨
    s'.defines = v ∧ s.manager.onChange s.defines v = some s'.manager
  := by
  by_cases hheads : s.defines.heads = v.heads
  · left
    rw [setValue, LogDefines.setValue_of_heads_eq _ _ hheads] at h
    exact ⟨hheads, (Option.some.inj h).symm⟩
  · right
    have hne := LogDefines.eq_false hheads
    cases hchange : s.manager.onChange s.defines v with
    | none =>
        simp [setValue, LogDefines.setValue, ConfigVar.setValue, hne, ConfigVar.notify, listener,
          hchange] at h
    | some m =>
        obtain rfl : { defines := v, manager := m } = s' := by
          simpa [setValue, LogDefines.setValue, ConfigVar.setValue, hne, ConfigVar.notify,
            listener, hchange] using h
        exact ⟨rfl, rfl⟩

/-- What a call with the value `v` does to the definition and the logger with a name. -/
inductive Effect (name : String) (v : LogDefines) (s s' : Logs) : Prop where
  /-- The definition has the name, level and formatter of the stored one. -/
  | kept (d i : LogDefine) (hd : s.defines.find? name = some d) (hi : v.find? name = some i)
      (hhead : d.head = i.head)
      (hstored : s'.defines.find? name = some d ∨ s'.defines.find? name = some i)
      (hlive : s'.manager.live name = s.manager.live name)
  /-- The definition is new or has changed. -/
  | configured (i : LogDefine) (l : LiveLogger) (hi : v.find? name = some i)
      (hstored : s'.defines.find? name = some i) (hlive : s'.manager.live name = some l)
      (hl : LiveLogger.Configured i ((s.manager.live name).getD LiveLogger.new) l)
  /-- Only the stored value has a definition. -/
  | reset (d : LogDefine) (hd : s.defines.find? name = some d) (hv : v.find? name = none)
      (hstored : s'.defines.find? name = none)
      (hlive : s'.manager.live name =
        some ((s.manager.live name).getD LiveLogger.new).reset)
  /-- Neither value has a definition. -/
  | absent (hs : s.defines.find? name = none) (hv : v.find? name = none)
      (hstored : s'.defines.find? name = none)
      (hlive : s'.manager.live name = s.manager.live name)

/-- What one `set_value` does to every logger. -/
theorem setValue_effect {s s' : Logs} {v : LogDefines} (hwf : s.manager.Wf)
    (h : s.setValue v = some s') :
  s'.manager.Wf ∧ ∀ name, Effect name v s s'
  := by
  obtain ⟨hheads, rfl⟩ | ⟨rfl, hchange⟩ := setValue_cases h
  · refine ⟨hwf, fun name => ?_⟩
    have hfind := LogDefines.find?_heads_eq hheads name
    cases hi : v.find? name with
    | none =>
        have hs : s'.defines.find? name = none := by simpa [hi] using hfind
        exact .absent hs hi hs rfl
    | some i =>
        rw [hi, Option.map_some] at hfind
        obtain ⟨d, hd, hhead⟩ := Option.map_eq_some_iff.mp hfind
        exact .kept d i hd hi hhead (.inl hd) rfl
  · obtain ⟨hwf', hupdated, hreset, habsent⟩ := hwf.onChange hchange
    refine ⟨hwf', fun name => ?_⟩
    cases hi : s'.defines.find? name with
    | none =>
        cases hd : s.defines.find? name with
        | none => exact .absent hd hi hi (habsent name hi hd)
        | some d =>
            obtain ⟨hmem, rfl⟩ := OrderedSet.find?_eq_some.mp hd
            exact .reset d hd hi hi (hreset d hmem hi)
    | some i =>
        obtain ⟨hmem, rfl⟩ := OrderedSet.find?_eq_some.mp hi
        have hi' := hupdated i hmem
        unfold LoggerManager.Updated at hi'
        split at hi'
        case isTrue hhead =>
          obtain ⟨d, hd, hhead⟩ := Option.map_eq_some_iff.mp hhead
          exact .kept d i hd hi hhead (.inr hi) hi'
        case isFalse =>
          obtain ⟨l, hl, hconfigured⟩ := hi'
          exact .configured i l hi hi hl hconfigured

/-! ### Histories -/

/-- A history in two parts. -/
theorem run_append {s s' : Logs} {us vs : List LogDefines} :
  s.run (us ++ vs) = some s' ↔ ∃ t, s.run us = some t ∧ t.run vs = some s'
  := by
  simp [run, List.foldlM_append, Option.bind_eq_some_iff]

/-- The last value of a history. -/
def last (vs : List LogDefines) : LogDefines :=
  vs.getLast?.getD (OrderedSet.empty LogDefine.name)

/-- The last accepted pattern that a history gives to a logger. -/
def lastPattern (name : String) (vs : List LogDefines) : String :=
  vs.foldl (fun p v =>
    match v.find? name with
    | some i => if Usable i.formatter then i.formatter else p
    | none => p) Logger.defaultPattern

/-- Two consecutive values that agree in the level and the formatter of a logger agree in
its appenders. -/
def Steady (name : String) (vs : List LogDefines) : Prop :=
  vs.IsChain fun u v => ∀ d i, u.find? name = some d → v.find? name = some i →
    d.head = i.head → d.appenders = i.appenders

@[simp]
theorem last_concat (vs : List LogDefines) (v : LogDefines) :
  last (vs ++ [v]) = v
  := by
  simp [last]

/-- The last pattern behind one more value. -/
theorem lastPattern_concat (name : String) (vs : List LogDefines) (v : LogDefines) :
  lastPattern name (vs ++ [v]) =
    match v.find? name with
    | some i => if Usable i.formatter then i.formatter else lastPattern name vs
    | none => lastPattern name vs
  := by
  simp [lastPattern]

/-- The last value decides if it has an accepted pattern. -/
theorem lastPattern_of_usable {name : String} {vs : List LogDefines} {i : LogDefine}
    (hi : (last vs).find? name = some i) (h : Usable i.formatter) :
  lastPattern name vs = i.formatter
  := by
  induction vs using List.reverseRecOn with
  | nil => simp [last, OrderedSet.empty, OrderedSet.find?] at hi
  | append_singleton vs v _ =>
      rw [last_concat] at hi
      simp [lastPattern_concat, hi, h]

/-- A steady history with one more value: where it has the same head, it has the same definition.
-/
theorem steady_concat {name : String} {vs : List LogDefines} {v : LogDefines}
    (h : Steady name (vs ++ [v])) :
  Steady name vs ∧ ∀ d i, (last vs).find? name = some d → v.find? name = some i →
    d.head = i.head → d = i
  := by
  obtain ⟨hvs, -, hlast⟩ := List.isChain_append.mp h
  refine ⟨hvs, fun d i hd hi hhead => ?_⟩
  cases hu : vs.getLast? with
  | none => simp [last, hu, OrderedSet.empty, OrderedSet.find?] at hd
  | some u =>
      have happenders := hlast u hu v rfl d i (by simpa [last, hu] using hd) hi hhead
      cases d
      cases i
      simp_all [LogDefine.head]

/-- The formatter of a logger behind its definition. -/
theorem configured_formatter {i : LogDefine} {l l' : LiveLogger} {p : String}
    (h : LiveLogger.Configured i l l') (hl : l.formatter = LogFormatter.new p) :
  l'.formatter = LogFormatter.new (if Usable i.formatter then i.formatter else p)
  := by
  rw [h.formatter, LogFormatter.orKeep, hl]
  split <;> rfl

/-- What the state behind a history says about the logger with a name. -/
structure Tracks (name : String) (vs : List LogDefines) (s : Logs) : Prop where
  wf : s.manager.Wf
  formatter : ((s.manager.live name).getD LiveLogger.new).formatter =
    LogFormatter.new (lastPattern name vs)
  head : (s.defines.find? name).map LogDefine.head = ((last vs).find? name).map LogDefine.head
  level : ∀ d, s.defines.find? name = some d →
    ∃ l, s.manager.live name = some l ∧ l.level = d.level
  appenders : Steady name vs → s.defines.find? name = (last vs).find? name ∧
    ∀ d l, s.defines.find? name = some d → s.manager.live name = some l →
      d.appenders.mapM (LogAppenderDefine.live l.formatter) = some l.appenders

namespace Tracks

variable {name : String} {vs : List LogDefines} {s : Logs}

/-- The stored definition has the head of the last one of the history. -/
theorem exists_last (h : Tracks name vs s) {d : LogDefine}
    (hd : s.defines.find? name = some d) :
  ∃ i, (last vs).find? name = some i ∧ i.head = d.head
  := by
  have hhead := h.head
  rw [hd, Option.map_some] at hhead
  apply Option.map_eq_some_iff.mp hhead.symm

/-- The last definition of the history has the head of the stored one. -/
theorem exists_define (h : Tracks name vs s) {i : LogDefine}
    (hi : (last vs).find? name = some i) :
  ∃ d, s.defines.find? name = some d ∧ d.head = i.head
  := by
  have hhead := h.head
  rw [hi, Option.map_some] at hhead
  apply Option.map_eq_some_iff.mp hhead

/-- What a history says about a logger of its last value. -/
theorem live (h : Tracks name vs s) {i : LogDefine} (hi : (last vs).find? name = some i) :
  ∃ l, s.manager.live name = some l ∧ l.level = i.level ∧
    l.formatter = LogFormatter.new (lastPattern name vs) ∧
    (Steady name vs →
      i.appenders.mapM (LogAppenderDefine.live l.formatter) = some l.appenders)
  := by
  obtain ⟨d, hd, hhead⟩ := h.exists_define hi
  obtain ⟨l, hl, hlevel⟩ := h.level d hd
  have hdlevel : d.level = i.level := congrArg (·.2.1) hhead
  have hformatter := h.formatter
  rw [hl, Option.getD_some] at hformatter
  refine ⟨l, hl, hlevel.trans hdlevel, hformatter, fun hsteady => ?_⟩
  obtain ⟨hsame, happenders⟩ := h.appenders hsteady
  apply happenders i l (hsame.trans hi) hl

end Tracks

/-- Before the first value. -/
theorem Initial.tracks {s : Logs} (h : s.Initial) (name : String) :
  Tracks name [] s
  := by
  have hfind : s.defines.find? name = none := by
    simp [h.defines, OrderedSet.empty, OrderedSet.find?]
  have hlast : (last []).find? name = none := by
    simp [last, OrderedSet.empty, OrderedSet.find?]
  refine ⟨h.wf, ?_, by rw [hfind, hlast], by simp [hfind], fun _ => ⟨by rw [hfind, hlast], ?_⟩⟩
  · cases hl : s.manager.live name with
    | none => rfl
    | some l => apply h.formatter name l hl
  · simp [hfind]

/-- One more call. -/
theorem Tracks.step {name : String} {vs : List LogDefines} {s s' : Logs} {v : LogDefines}
    (h : Tracks name vs s) (hset : s.setValue v = some s') :
  Tracks name (vs ++ [v]) s'
  := by
  obtain ⟨hwf, heffect⟩ := setValue_effect h.wf hset
  cases heffect name with
  | kept d i hd hi hhead hstored hlive =>
      obtain ⟨l, hl, hlevel⟩ := h.level d hd
      obtain ⟨j, hj, hjhead⟩ := h.exists_last hd
      have hjformatter : j.formatter = i.formatter := congrArg (·.2.2) (hjhead.trans hhead)
      have hdlevel : d.level = i.level := congrArg (·.2.1) hhead
      constructor
      case wf => apply hwf
      case formatter =>
        rw [hlive, h.formatter, lastPattern_concat, hi]
        congr 1
        by_cases husable : Usable i.formatter
        · simp [husable, lastPattern_of_usable hj (hjformatter ▸ husable), hjformatter]
        · simp [husable]
      case head =>
        obtain hstored | hstored := hstored
        · simp [hstored, hi, hhead]
        · simp [hstored, hi]
      case level =>
        intro d' hd'
        refine ⟨l, hlive.trans hl, ?_⟩
        obtain hstored | hstored := hstored
        · obtain rfl := Option.some.inj (hstored.symm.trans hd')
          apply hlevel
        · obtain rfl := Option.some.inj (hstored.symm.trans hd')
          apply hlevel.trans hdlevel
      case appenders =>
        intro hsteady
        obtain ⟨hvs, hsame⟩ := steady_concat hsteady
        obtain ⟨hfind, happenders⟩ := h.appenders hvs
        obtain rfl : d = i := hsame d i (hfind.symm.trans hd) hi hhead
        have hstored' : s'.defines.find? name = some d := hstored.elim id id
        refine ⟨by rw [hstored', last_concat, hi], fun d' l' hd' hl' => ?_⟩
        obtain rfl := Option.some.inj (hstored'.symm.trans hd')
        apply happenders d l' hd (hlive ▸ hl')
  | configured i l hi hstored hlive hl =>
      constructor
      case wf => apply hwf
      case formatter =>
        rw [hlive, Option.getD_some, configured_formatter hl h.formatter, lastPattern_concat, hi]
      case head => simp [hstored, hi]
      case level =>
        intro d hd
        obtain rfl := Option.some.inj (hstored.symm.trans hd)
        exact ⟨l, hlive, hl.level⟩
      case appenders =>
        refine fun _ => ⟨by rw [hstored, last_concat, hi], fun d l' hd hl' => ?_⟩
        obtain rfl := Option.some.inj (hstored.symm.trans hd)
        obtain rfl := Option.some.inj (hlive.symm.trans hl')
        apply hl.appenders
  | reset d hd hv hstored hlive =>
      constructor
      case wf => apply hwf
      case formatter =>
        rw [hlive, Option.getD_some, lastPattern_concat, hv, ← h.formatter]
        rfl
      case head => simp [hstored, hv]
      case level => simp [hstored]
      case appenders => simp [hstored, hv]
  | absent hs hv hstored hlive =>
      constructor
      case wf => apply hwf
      case formatter => rw [hlive, h.formatter, lastPattern_concat, hv]
      case head => simp [hstored, hv]
      case level => simp [hstored]
      case appenders => simp [hstored, hv]

/-- Behind any history. -/
theorem run_tracksName {s₀ s : Logs} (h₀ : s₀.Initial) {vs : List LogDefines}
    (hrun : s₀.run vs = some s) (name : String) :
  Tracks name vs s
  := by
  induction vs using List.reverseRecOn generalizing s with
  | nil =>
      obtain rfl : s₀ = s := by simpa [run] using hrun
      apply h₀.tracks name
  | append_singleton vs v ih =>
      obtain ⟨t, ht, hv⟩ := run_append.mp hrun
      apply (ih ht).step (by simpa [run] using hv)

/-! ### What every history keeps -/

/-- The live logger is that of the map, with its appenders read from the heap. -/
theorem exists_logger {s : LoggerManager} {name : String} {l : LiveLogger}
    (h : s.live name = some l) :
  ∃ lg, s.mLoggers name = some lg ∧ lg.mLevel = l.level ∧ lg.mFormatter = l.formatter ∧
    lg.mAppenders.map s.heap = l.appenders
  := by
  obtain ⟨lg, hlg, rfl⟩ := Option.map_eq_some_iff.mp h
  exact ⟨lg, hlg, rfl, rfl, rfl⟩

/-- The stored value has a logger with the name, or the logger has been reset. -/
def DefinedOrReset (name : String) (s : Logs) : Prop :=
  (∃ d, s.defines.find? name = some d) ∨
    ∃ l, s.manager.live name = some l ∧ l.level = .unknow ∧ l.appenders = []

/-- A logger that is defined or reset stays so. -/
theorem DefinedOrReset.step {name : String} {s s' : Logs} {v : LogDefines}
    (h : DefinedOrReset name s) (hwf : s.manager.Wf) (hset : s.setValue v = some s') :
  DefinedOrReset name s'
  := by
  obtain ⟨-, heffect⟩ := setValue_effect hwf hset
  cases heffect name with
  | kept d i _ _ _ hstored =>
      obtain hstored | hstored := hstored
      · exact .inl ⟨d, hstored⟩
      · exact .inl ⟨i, hstored⟩
  | configured i _ _ hstored => exact .inl ⟨i, hstored⟩
  | reset d _ _ _ hlive => exact .inr ⟨_, hlive, rfl, rfl⟩
  | absent hs _ _ hlive =>
      obtain ⟨d, hd⟩ | hreset := h
      · simp [hs] at hd
      · exact .inr (hlive ▸ hreset)

/-- A logger that was defined is defined or reset from then on. -/
theorem run_definedOrReset {s₀ t s : Logs} (h₀ : s₀.Initial) {us vs : List LogDefines}
    (hus : s₀.run us = some t) {name : String} (h : DefinedOrReset name t)
    (hvs : t.run vs = some s) :
  DefinedOrReset name s
  := by
  induction vs using List.reverseRecOn generalizing s with
  | nil =>
      obtain rfl : t = s := by simpa [run] using hvs
      apply h
  | append_singleton vs v ih =>
      obtain ⟨t', ht', hv⟩ := run_append.mp hvs
      have hwf := (run_tracksName h₀ (run_append.mpr ⟨t, hus, ht'⟩) name).wf
      apply (ih ht').step hwf (by simpa [run] using hv)

/-- Behind every history, the loggers of the stored value have their level and their
accepted formatter, and the loggers that only earlier stored values had are reset. -/
theorem run_tracks {s₀ s : Logs} (h₀ : s₀.Initial) {vs : List LogDefines}
    (hrun : s₀.run vs = some s) :
  (∀ d ∈ s.defines, ∃ l, s.manager.mLoggers d.name = some l ∧ l.mLevel = d.level ∧
      (Usable d.formatter → l.mFormatter.mPattern = d.formatter)) ∧
    ∀ us us' t, vs = us ++ us' → s₀.run us = some t → ∀ d ∈ t.defines,
      s.defines.find? d.name = none →
        ∃ l, s.manager.mLoggers d.name = some l ∧ l.mLevel = .unknow ∧ l.mAppenders = []
  := by
  constructor
  · intro d hd
    have hfind := OrderedSet.find?_key hd
    have htracks := run_tracksName h₀ hrun d.name
    obtain ⟨l, hl, hlevel⟩ := htracks.level d hfind
    obtain ⟨lg, hlg, hlglevel, hlgformatter, -⟩ := exists_logger hl
    refine ⟨lg, hlg, hlglevel.trans hlevel, fun husable => ?_⟩
    obtain ⟨i, hi, hhead⟩ := htracks.exists_last hfind
    have hformatter : i.formatter = d.formatter := congrArg (·.2.2) hhead
    have hlast := lastPattern_of_usable hi (hformatter ▸ husable)
    have hpattern := htracks.formatter
    rw [hl, Option.getD_some, hlast, hformatter] at hpattern
    rw [hlgformatter, hpattern]
    rfl
  · rintro us us' t rfl hus d hd hnone
    obtain ⟨t', ht', hrest⟩ := run_append.mp hrun
    obtain rfl := Option.some.inj (hus.symm.trans ht')
    have hdefined : DefinedOrReset d.name t := .inl ⟨d, OrderedSet.find?_key hd⟩
    obtain ⟨d', hd'⟩ | ⟨l, hl, hlevel, happenders⟩ := run_definedOrReset h₀ hus hdefined hrest
    · simp [hnone] at hd'
    · obtain ⟨lg, hlg, hlglevel, -, hlgappenders⟩ := exists_logger hl
      refine ⟨lg, hlg, hlglevel.trans hlevel, ?_⟩
      simpa [happenders] using hlgappenders

/-- One logger. -/
def ofDefine (d : LogDefine) : LogDefines :=
  ⟨[d], List.pairwise_singleton _ _⟩

/-- The state behind a history from the start of the program. -/
def after (vs : List LogDefines) : Logs :=
  (start.run vs).getD start

/-- A logger with an appender. -/
def loggerA : LogDefine := { name := "a", level := .info, appenders := [{ type := 2 }] }

/-- A logger with a formatter. -/
def loggerB : LogDefine := { name := "b", level := .warn, formatter := "%m%n" }

theorem run_tracks_replaced :
  let s := after [ofDefine loggerA, ofDefine loggerB]
  (∃ l, s.manager.mLoggers "b" = some l ∧ l.mLevel = .warn ∧ l.mFormatter.mPattern = "%m%n") ∧
    ∃ l, s.manager.mLoggers "a" = some l ∧ l.mLevel = .unknow ∧ l.mAppenders = []
  := by
  have hrun : start.run [ofDefine loggerA, ofDefine loggerB] =
      some (after [ofDefine loggerA, ofDefine loggerB]) := rfl
  have hprefix : start.run [ofDefine loggerA] = some (after [ofDefine loggerA]) := rfl
  obtain ⟨hdefined, hremoved⟩ := run_tracks start_initial hrun
  constructor
  · obtain ⟨l, hl, hlevel, hpattern⟩ := hdefined loggerB List.mem_cons_self
    exact ⟨l, hl, hlevel, hpattern (by decide)⟩
  · apply hremoved [ofDefine loggerA] [ofDefine loggerB] _ rfl hprefix loggerA _ rfl
    apply List.mem_cons_self

/-! ### What two histories share -/

/-- The appenders of a definition differ between loggers in the inherited formatter only. -/
theorem mapM_live (formatter : LogFormatter) (as : List LogAppenderDefine) :
  as.mapM (LogAppenderDefine.live formatter) =
    (as.mapM LogAppenderDefine.newAppender).map (List.map (·.inherit formatter))
  := by
  induction as with
  | nil => rfl
  | cons a as ih =>
      rw [List.mapM_cons, List.mapM_cons, ih]
      cases ha : a.newAppender with
      | none => simp [LogAppenderDefine.live, ha]
      | some ap =>
          cases as.mapM LogAppenderDefine.newAppender <;> simp [LogAppenderDefine.live, ha]

theorem inherit_kind_level (a : LogAppender) (formatter : LogFormatter) :
  ((a.inherit formatter).kind, (a.inherit formatter).mLevel) = (a.kind, a.mLevel)
  := by
  unfold LogAppender.inherit
  split <;> rfl

/-- The types, files and levels of appenders do not depend on the formatter that they inherit. -/
theorem kind_level_of_mapM_live {as : List LogAppenderDefine} {f f' : LogFormatter}
    {aps aps' : List LogAppender} (h : as.mapM (LogAppenderDefine.live f) = some aps)
    (h' : as.mapM (LogAppenderDefine.live f') = some aps') :
  (aps.map fun a => (a.kind, a.mLevel)) = aps'.map fun a => (a.kind, a.mLevel)
  := by
  rw [mapM_live] at h h'
  obtain ⟨news, hnews, rfl⟩ := Option.map_eq_some_iff.mp h
  obtain ⟨news', hnews', rfl⟩ := Option.map_eq_some_iff.mp h'
  obtain rfl := Option.some.inj (hnews.symm.trans hnews')
  simp only [List.map_map, Function.comp_def, inherit_kind_level]

/-- Two histories with the same last value give its loggers the same level; the same
pattern, if they have the same last accepted pattern for it; and the same appenders, if
both are steady. -/
theorem runs_agree {s₀ s₀' s s' : Logs} (h₀ : s₀.Initial) (h₀' : s₀'.Initial)
    {vs vs' : List LogDefines} (hrun : s₀.run vs = some s) (hrun' : s₀'.run vs' = some s')
    {v : LogDefines} (hlast : vs.getLast? = some v) (hlast' : vs'.getLast? = some v)
    {i : LogDefine} (hi : i ∈ v) :
  ∃ l l', s.manager.live i.name = some l ∧ s'.manager.live i.name = some l' ∧
    l.level = l'.level ∧
    (lastPattern i.name vs = lastPattern i.name vs' →
      l.formatter.mPattern = l'.formatter.mPattern) ∧
    (Steady i.name vs → Steady i.name vs' →
      (l.appenders.map fun a => (a.kind, a.mLevel)) =
          l'.appenders.map (fun a => (a.kind, a.mLevel)) ∧
        (lastPattern i.name vs = lastPattern i.name vs' →
          l.appenders.map LogAppender.view = l'.appenders.map LogAppender.view))
  := by
  have hfind := OrderedSet.find?_key hi
  have hvs : (last vs).find? i.name = some i := by simpa [last, hlast] using hfind
  have hvs' : (last vs').find? i.name = some i := by simpa [last, hlast'] using hfind
  obtain ⟨l, hl, hlevel, hformatter, happenders⟩ := (run_tracksName h₀ hrun i.name).live hvs
  obtain ⟨l', hl', hlevel', hformatter', happenders'⟩ :=
    (run_tracksName h₀' hrun' i.name).live hvs'
  refine ⟨l, l', hl, hl', hlevel.trans hlevel'.symm, fun hpattern => ?_, fun hs hs' => ⟨?_, ?_⟩⟩
  · rw [hformatter, hformatter', hpattern]
  · apply kind_level_of_mapM_live (happenders hs) (happenders' hs')
  · intro hpattern
    have hsame : l.formatter = l'.formatter := by rw [hformatter, hformatter', hpattern]
    have haps := happenders hs
    rw [hsame, happenders' hs'] at haps
    rw [Option.some.inj haps]

/-- The same logger with another level and without the appender. -/
def loggerAError : LogDefine := { loggerA with level := .error, appenders := [] }

/-- The levels differ, so that the appender is attached. -/
theorem steady_changed :
  Steady "a" [ofDefine loggerAError, ofDefine loggerA]
  := by
  apply List.isChain_pair.mpr
  intro d i hd hi hhead
  obtain rfl : loggerAError = d := Option.some.inj hd
  obtain rfl : loggerA = i := Option.some.inj hi
  exact absurd hhead (by decide)

theorem runs_agree_changed :
  ∃ l l', (after [ofDefine loggerAError, ofDefine loggerA]).manager.live "a" = some l ∧
    (after [ofDefine loggerA]).manager.live "a" = some l' ∧ l.level = l'.level ∧
    l.formatter.mPattern = l'.formatter.mPattern ∧ l'.appenders.length = 1 ∧
    l.appenders.map LogAppender.view = l'.appenders.map LogAppender.view
  := by
  have hrun : start.run [ofDefine loggerAError, ofDefine loggerA] =
      some (after [ofDefine loggerAError, ofDefine loggerA]) := rfl
  have hrun' : start.run [ofDefine loggerA] = some (after [ofDefine loggerA]) := rfl
  obtain ⟨l, l', hl, hl', hlevel, hpattern, happenders⟩ :=
    runs_agree start_initial start_initial hrun hrun' rfl rfl
      (show loggerA ∈ ofDefine loggerA from List.mem_cons_self)
  have hlast : lastPattern "a" [ofDefine loggerAError, ofDefine loggerA] =
      lastPattern "a" [ofDefine loggerA] := by decide
  have hsteady : Steady "a" [ofDefine loggerA] := List.isChain_singleton _
  have hlength : ((after [ofDefine loggerA]).manager.live "a").map (·.appenders.length) =
      some 1 := rfl
  refine ⟨l, l', hl, hl', hlevel, hpattern hlast, ?_, (happenders steady_changed hsteady).2 hlast⟩
  have hname : (after [ofDefine loggerA]).manager.live "a" = some l' := hl'
  rw [hname] at hlength
  exact Option.some.inj hlength

/-- The same logger without a formatter. -/
def loggerBPlain : LogDefine := { loggerB with formatter := "" }

/-- A logger that had a formatter keeps it when its definition has none. -/
theorem runs_differ :
  let s := after [ofDefine loggerB, ofDefine loggerBPlain]
  let s' := after [ofDefine loggerBPlain]
  start.run [ofDefine loggerB, ofDefine loggerBPlain] = some s ∧
    start.run [ofDefine loggerBPlain] = some s' ∧
    (s.manager.live "b").map (·.formatter.mPattern) = some "%m%n" ∧
    (s'.manager.live "b").map (·.formatter.mPattern) = some Logger.defaultPattern
  := ⟨rfl, rfl, rfl, rfl⟩

end Logs

end WbServer
