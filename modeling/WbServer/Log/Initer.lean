import WbServer.Log.Define
import WbServer.Log.Live

/-!
# The listener of the logs configuration

The listener that `LogIniter` adds to `g_log_defines` goes through the new value, updates
the loggers that are new or changed, and then resets the loggers that only the old value
has. `LoggerManager.onChange_live` says what that does to the live loggers.

An appender whose type is neither `1` nor `2` is a null pointer when its level is set;
`onChange` has no result then.
-/

namespace WbServer

/-- The appender for a definition, up to `logger->add_appender(ap)`. -/
def LogAppenderDefine.newAppender (a : LogAppenderDefine) : Option LogAppender :=
  let kind : Option LogAppender.Kind :=
    if a.type = 1 then some (.file a.file) else if a.type = 2 then some .stdout else none
  kind.map fun kind =>
    let ap : LogAppender := { kind := kind, mLevel := a.level }
    if a.formatter ≠ "" then
      let fmt := LogFormatter.new a.formatter
      if fmt.mError then ap else ap.setFormatter (some fmt)
    else ap

namespace LoggerManager

/-- The loop body over the appenders of a definition. -/
def attach (name : String) (s : LoggerManager) (a : LogAppenderDefine) : Option LoggerManager :=
  a.newAppender.map fun ap => (s.newAppender ap).addAppender name s.next

/-- A new or changed logger. -/
def configure (s : LoggerManager) (i : LogDefine) : Option LoggerManager :=
  let s := s.getLogger i.name
  let s := s.setLevel i.name i.level
  let s := if i.formatter ≠ "" then s.setPattern i.name i.formatter else s
  let s := s.clearAppender i.name
  i.appenders.foldlM (attach i.name) s

/-- The loop body over the new value. -/
def update (oldValue : LogDefines) (s : LoggerManager) (i : LogDefine) : Option LoggerManager :=
  match oldValue.find? i.name with
  | none => s.configure i
  | some d => if !(i.eq d) then s.configure i else some s

/-- The loop body over the old value. -/
def remove (newValue : LogDefines) (s : LoggerManager) (i : LogDefine) : LoggerManager :=
  match newValue.find? i.name with
  | none => ((s.getLogger i.name).setLevel i.name .unknow).clearAppender i.name
  | some _ => s

/-- The listener. -/
def onChange (oldValue newValue : LogDefines) (s : LoggerManager) : Option LoggerManager :=
  (newValue.toList.foldlM (update oldValue) s).map fun s =>
    oldValue.toList.foldl (remove newValue) s

end LoggerManager

/-! ### Its effect on the live loggers -/

/-- A pattern that `set_formatter` accepts. -/
def Usable (pattern : String) : Prop :=
  pattern ≠ "" ∧ (LogFormatter.new pattern).mError = false

instance (pattern : String) : Decidable (Usable pattern) :=
  inferInstanceAs (Decidable (_ ∧ _))

/-- The formatter of a logger that is configured with a pattern. -/
def LogFormatter.orKeep (pattern : String) (formatter : LogFormatter) : LogFormatter :=
  if Usable pattern then LogFormatter.new pattern else formatter

/-- The live appender for a definition, in a logger with the given formatter. -/
def LogAppenderDefine.live (formatter : LogFormatter) (a : LogAppenderDefine) :
    Option LogAppender :=
  a.newAppender.map (·.inherit formatter)

/-- The logger `l` is configured by `i`, and becomes `l'`. -/
structure LiveLogger.Configured (i : LogDefine) (l l' : LiveLogger) : Prop where
  level : l'.level = i.level
  formatter : l'.formatter = LogFormatter.orKeep i.formatter l.formatter
  appenders : i.appenders.mapM (LogAppenderDefine.live l'.formatter) = some l'.appenders

/-- The view of a logger that has been reset. -/
def LiveLogger.reset (l : LiveLogger) : LiveLogger :=
  { l with level := .unknow, appenders := [] }

namespace LoggerManager

/-- The pattern of a definition is set unless it is empty. -/
theorem Wf.setPattern_orKeep {s : LoggerManager} (h : s.Wf) (name pattern : String) :
  ∃ f, ActsAs name (Option.map f) s
      (if pattern ≠ "" then s.setPattern name pattern else s) ∧
    ∀ l, (f l).level = l.level ∧ (f l).formatter = LogFormatter.orKeep pattern l.formatter
  := by
  by_cases hempty : pattern = ""
  · refine ⟨id, ?_, fun l => ?_⟩
    · apply ActsAs.congr
      · simpa [hempty] using h.refl name
      · simp
    · simp [LogFormatter.orKeep, Usable, hempty]
  · refine ⟨(·.setPattern pattern), by simpa [hempty] using h.setPattern name pattern, fun l => ?_⟩
    cases herror : (LogFormatter.new pattern).mError with
    | true => simp [LiveLogger.setPattern, LogFormatter.orKeep, Usable, herror]
    | false =>
        simp [LiveLogger.setPattern, LiveLogger.setFormatter, LogFormatter.orKeep, Usable, herror,
          hempty]

/-- The loop over the appenders of a definition. -/
theorem Wf.attachAll {s s' : LoggerManager} (h : s.Wf) {name : String} {l : LiveLogger}
    (hl : s.live name = some l) {as : List LogAppenderDefine}
    (hattach : as.foldlM (LoggerManager.attach name) s = some s') :
  ∃ aps, as.mapM (LogAppenderDefine.live l.formatter) = some aps ∧
    ActsAs name (fun _ => some { l with appenders := l.appenders ++ aps }) s s'
  := by
  induction as generalizing s l with
  | nil =>
      obtain rfl : s = s' := by simpa using hattach
      refine ⟨[], by simp, (h.refl name).congr ?_⟩
      simp [hl]
  | cons a as ih =>
      rw [List.foldlM_cons] at hattach
      obtain ⟨t, ht, hattach⟩ := Option.bind_eq_some_iff.mp hattach
      obtain ⟨ap, hap, rfl⟩ := Option.map_eq_some_iff.mp ht
      have hone := h.attach name ap
      have hl' := hone.live
      rw [hl, Option.map_some] at hl'
      obtain ⟨aps, haps, hrest⟩ := ih hone.wf hl' hattach
      refine ⟨ap.inherit l.formatter :: aps, ?_, ?_⟩
      · have hlive : a.live l.formatter = some (ap.inherit l.formatter) := by
          simp [LogAppenderDefine.live, hap]
        simp only [LiveLogger.addAppender] at haps
        simp [List.mapM_cons, hlive, haps]
      · apply (hone.comp hrest).congr
        simp [LiveLogger.addAppender]

/-- The effect of a definition on all loggers. -/
theorem Wf.configure {s s' : LoggerManager} (h : s.Wf) {i : LogDefine}
    (hconfigure : s.configure i = some s') :
  s'.Wf ∧
    (∃ l', s'.live i.name = some l' ∧
      LiveLogger.Configured i ((s.live i.name).getD LiveLogger.new) l') ∧
    ∀ name ≠ i.name, s'.live name = s.live name
  := by
  set l := (s.live i.name).getD LiveLogger.new
  have hget := h.getLogger i.name
  have hlevel := hget.comp (hget.wf.setLevel i.name i.level)
  obtain ⟨f, hpattern, hf⟩ := hlevel.wf.setPattern_orKeep i.name i.formatter
  have hprefix := (hlevel.comp hpattern).comp (hpattern.wf.clearAppender i.name)
  have hl := hprefix.live
  simp only [Function.comp_apply, Option.map_some] at hl
  obtain ⟨aps, haps, hattach⟩ := hprefix.wf.attachAll hl hconfigure
  have hall := hprefix.comp hattach
  refine ⟨hall.wf, ⟨_, hall.live, ?_⟩, hall.others⟩
  obtain ⟨hflevel, hfformatter⟩ := hf (l.setLevel i.level)
  exact ⟨hflevel, hfformatter, by simpa [LiveLogger.clearAppender] using haps⟩

/-- The iteration at a logger of the new value leaves it as it is, if its name, level and
formatter are the old ones, and configures it otherwise. -/
def Updated (oldValue : LogDefines) (i : LogDefine) (v v' : Option LiveLogger) : Prop :=
  if (oldValue.find? i.name).map LogDefine.head = some i.head then v' = v
  else ∃ l', v' = some l' ∧ LiveLogger.Configured i (v.getD LiveLogger.new) l'

/-- The effect of the loop over the new value, at one definition. -/
theorem Wf.update {s s' : LoggerManager} (h : s.Wf) {oldValue : LogDefines} {i : LogDefine}
    (hupdate : update oldValue s i = some s') :
  s'.Wf ∧ Updated oldValue i (s.live i.name) (s'.live i.name) ∧
    ∀ name ≠ i.name, s'.live name = s.live name
  := by
  unfold LoggerManager.update at hupdate
  cases hfind : oldValue.find? i.name with
  | none =>
      rw [hfind] at hupdate
      obtain ⟨hwf, hlive, hothers⟩ := h.configure hupdate
      exact ⟨hwf, by simpa [Updated, hfind] using hlive, hothers⟩
  | some d =>
      rw [hfind] at hupdate
      by_cases hhead : d.head = i.head
      · have heq : i.eq d = true := LogDefine.eq_iff.mpr hhead.symm
        obtain rfl : s = s' := by simpa [heq] using hupdate
        exact ⟨h, by simp [Updated, hfind, hhead], fun _ _ => rfl⟩
      · have heq : i.eq d = false := by
          rw [Bool.eq_false_iff, ne_eq, LogDefine.eq_iff]
          exact fun heq => hhead heq.symm
        obtain ⟨hwf, hlive, hothers⟩ := h.configure (by simpa [heq] using hupdate)
        exact ⟨hwf, by simpa [Updated, hfind, hhead] using hlive, hothers⟩

/-- The iteration at a logger of the old value resets it, unless the new value has it. -/
def Removed (newValue : LogDefines) (i : LogDefine) (v v' : Option LiveLogger) : Prop :=
  v' = if (newValue.find? i.name).isSome then v else some (v.getD LiveLogger.new).reset

/-- The effect of the loop over the old value, at one definition. -/
theorem Wf.remove {s : LoggerManager} (h : s.Wf) (newValue : LogDefines) (i : LogDefine) :
  (remove newValue s i).Wf ∧
    Removed newValue i (s.live i.name) ((remove newValue s i).live i.name) ∧
    ∀ name ≠ i.name, (remove newValue s i).live name = s.live name
  := by
  unfold LoggerManager.remove Removed
  cases hfind : newValue.find? i.name with
  | some d => exact ⟨h, by simp, fun _ _ => rfl⟩
  | none =>
      have hget := h.getLogger i.name
      have hlevel := hget.comp (hget.wf.setLevel i.name .unknow)
      have hreset := hlevel.comp (hlevel.wf.clearAppender i.name)
      refine ⟨hreset.wf, ?_, hreset.others⟩
      rw [hreset.live]
      rfl

/-- What the listener does to the live loggers. -/
theorem Wf.onChange {s s' : LoggerManager} (h : s.Wf) {oldValue newValue : LogDefines}
    (hchange : onChange oldValue newValue s = some s') :
  s'.Wf ∧
    (∀ i ∈ newValue, Updated oldValue i (s.live i.name) (s'.live i.name)) ∧
    (∀ d ∈ oldValue, newValue.find? d.name = none →
      s'.live d.name = some ((s.live d.name).getD LiveLogger.new).reset) ∧
    ∀ name, newValue.find? name = none → oldValue.find? name = none →
      s'.live name = s.live name
  := by
  obtain ⟨t, ht, rfl⟩ := Option.map_eq_some_iff.mp hchange
  obtain ⟨htwf, hupdated, hkeep⟩ := OrderedSet.foldlM_keyed LoggerManager.live
    (Updated oldValue) (fun s i s' hs hi => Wf.update hs hi) newValue h ht
  have hloop : oldValue.toList.foldlM (fun s i => some (LoggerManager.remove newValue s i)) t =
      some (oldValue.toList.foldl (LoggerManager.remove newValue) t) := List.foldlM_pure
  have hremove : ∀ s i s', s.Wf → some (LoggerManager.remove newValue s i) = some s' →
      s'.Wf ∧ Removed newValue i (s.live i.name) (s'.live i.name) ∧
        ∀ name ≠ i.name, s'.live name = s.live name := by
    intro s i s' hs hi
    obtain rfl := Option.some.inj hi
    apply hs.remove newValue i
  obtain ⟨hwf, hremoved, hkeep'⟩ := OrderedSet.foldlM_keyed LoggerManager.live
    (Removed newValue) hremove oldValue htwf hloop
  refine ⟨hwf, fun i hi => ?_, fun d hd hnone => ?_, fun name hnew hold => ?_⟩
  · -- the second loop leaves the loggers of the new value alone
    have hsame : (oldValue.toList.foldl (LoggerManager.remove newValue) t).live i.name =
        t.live i.name := by
      cases hfind : oldValue.find? i.name with
      | none => apply hkeep' i.name hfind
      | some d =>
          obtain ⟨hd, hname⟩ := OrderedSet.find?_eq_some.mp hfind
          have hdR := hremoved d hd
          simpa [Removed, hname, OrderedSet.find?_key hi] using hdR
    rw [hsame]
    apply hupdated i hi
  · have hdR := hremoved d hd
    simpa [Removed, hnone, hkeep d.name hnone] using hdR
  · rw [hkeep' name hold, hkeep name hnew]

end LoggerManager

end WbServer
