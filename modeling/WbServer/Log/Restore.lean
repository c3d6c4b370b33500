import WbServer.Log.Configured
import WbServer.Log.Dump

/-!
# Restoring the loggers from a dump

A program that has only been configured is dumped, and a fresh program is given the
configuration that the dump is read as. `Logs.dump_restores` says that its live loggers are
the dumped ones, up to what the decoder does not read of the appenders, and
`Logs.dump_restores_documents` that nothing is lost if all configurations came from
documents.
-/

namespace WbServer

open Yaml (Node)

/-! ### Restored loggers -/

/-- What is restored of an appender, in a logger with the given formatter. -/
def LogAppender.restored (formatter : LogFormatter) (a : LogAppender) : LogAppender :=
  match a.kind, a.mHasFormatter with
  | .file _, true => { a with mLevel := .unknow }
  | kind, _ => { kind := kind, mLevel := .unknow, mFormatter := some formatter }

/-- What is restored of a logger. -/
def LiveLogger.restored (l : LiveLogger) : LiveLogger :=
  { l with appenders := l.appenders.map fun a => a.restored l.formatter }

/-- The description of an appender leads to what is restored of it. -/
theorem LogAppender.live_define {formatter : LogFormatter} {a : LogAppender}
    (h : a.Regular formatter) :
  a.define.live formatter = some (a.restored formatter)
  := by
  obtain ⟨kind, level, own, has⟩ := a
  obtain ⟨p, ⟨hempty, herror⟩, rfl, rfl⟩ | ⟨rfl, rfl⟩ := h
  · have hpattern : (LogFormatter.new p).mPattern = p := rfl
    cases kind <;>
      simp [define, ownPattern, hpattern, restored, LogAppenderDefine.live,
        LogAppenderDefine.newAppender, hempty, herror, LogAppender.setFormatter,
        LogAppender.inherit]
  · cases kind <;>
      simp [define, ownPattern, restored, LogAppenderDefine.live, LogAppenderDefine.newAppender,
        LogAppender.inherit]

/-- A logger that is configured by the description of another one. -/
theorem LiveLogger.Configured.eq_restored {name : String} {l l₀ l' : LiveLogger}
    (h : Configured (l.define name) l₀ l') (hl : l.Regular) :
  l' = l.restored
  := by
  obtain ⟨p, husable, hp⟩ := hl.formatter
  have hpattern : l.formatter.mPattern = p := by rw [hp]; rfl
  have hformatter : l'.formatter = l.formatter := by
    rw [h.formatter, LogFormatter.orKeep, LiveLogger.define, hpattern, if_pos husable, hp]
  have happenders := h.appenders
  have hlive : l.appenders.mapM (LogAppenderDefine.live l.formatter ∘ LogAppender.define) =
      some (l.appenders.map fun a => a.restored l.formatter) :=
    mapM_eq_some_map fun a ha => LogAppender.live_define (hl.appenders a ha)
  rw [LiveLogger.define, List.mapM_map, hformatter, hlive] at happenders
  have hlevel := h.level
  cases l'
  simp_all [restored, LiveLogger.define]

namespace Logs

/-- A fresh program that is given the description of the loggers restores them. -/
theorem setValue_described {s : Logs} (hreachable : Program.system.Reachable s)
    (hregular : s.manager.Regular) {names : OrderedSet fun name : String => name}
    (hkeys : s.manager.Keys names) :
  ∃ s', start.setValue (s.manager.described names) = some s' ∧
    ∀ name, s'.manager.live name = (s.manager.live name).map LiveLogger.restored
  := by
  have hrooted := LoggerManager.reachable_rooted (Program.reachable_manager hreachable)
  have hknown : ∀ i ∈ s.manager.described names, ∀ a ∈ i.appenders, a.Known := by
    intro i hi a ha
    have hfind := OrderedSet.find?_key hi
    rw [LoggerManager.find?_described hkeys] at hfind
    obtain ⟨l, -, hdefine⟩ := Option.map_eq_some_iff.mp hfind
    rw [← hdefine] at ha
    obtain ⟨b, -, rfl⟩ := List.mem_map.mp ha
    unfold LogAppender.define
    split
    · exact .inr rfl
    · exact .inl rfl
  obtain ⟨s', hs'⟩ : ∃ s', start.setValue (s.manager.described names) = some s' := by
    obtain ⟨-, hs'⟩ | ⟨-, _, -, hs'⟩ := start.setValue_of_known hknown
    · exact ⟨_, hs'⟩
    · exact ⟨_, hs'⟩
  use s', hs'
  intro name
  have hfind := LoggerManager.find?_described hkeys name
  obtain ⟨-, heffect⟩ := setValue_effect LoggerManager.new_wf hs'
  cases heffect name with
  | kept d i hd => cases hd
  | reset d hd => cases hd
  | configured i l' hi hstored hlive hconfigured =>
      rw [hi] at hfind
      obtain ⟨l, hl, rfl⟩ := Option.map_eq_some_iff.mp hfind.symm
      rw [hlive, hl, Option.map_some, hconfigured.eq_restored (hregular name l hl)]
  | absent hs hv hstored hlive =>
      rw [hv] at hfind
      have hnone : s.manager.live name = none := Option.map_eq_none_iff.mp hfind.symm
      -- the fresh program has the logger `root` only, which the dump has, too
      have hname : name ≠ "root" := by
        rintro rfl
        have hroot := hrooted.root
        rw [LoggerManager.identity, Option.map_eq_none_iff.mp hnone] at hroot
        cases hroot
      rw [hlive, hnone, Option.map_none, Option.eq_none_iff_forall_ne_some]
      intro l hl
      obtain ⟨l', hl', -⟩ := Option.map_eq_some_iff.mp hl
      apply hname (LoggerManager.new_mLoggers hl').1

/-- Whatever configurations a program has stored: its dump is read as a configuration that a
fresh program can store, and this program then has the same loggers, with their levels, their
formatters and their appenders, up to the levels of the appenders and the formatters of the
appenders to the standard output. -/
theorem dump_restores {yaml : YamlCpp Node} (hyaml : yaml.Faithful) {vs : List LogDefines}
    {s : Logs} (hrun : start.run vs = some s) :
  ∃ names text v s', s.manager.Keys names ∧ s.manager.toYamlString yaml names = some text ∧
    LogDefines.ofText yaml text = some v ∧ start.setValue v = some s' ∧
    ∀ name, s'.manager.live name = (s.manager.live name).map LiveLogger.restored
  := by
  have hreachable := run_reachable hrun
  have hmanager := Program.reachable_manager hreachable
  obtain ⟨names, hkeys⟩ := LoggerManager.exists_keys hmanager
  obtain ⟨text, htext, hread⟩ := LoggerManager.toYamlString_described hyaml
    (LoggerManager.reachable_rooted hmanager) hkeys
  obtain ⟨s', hs', hlive⟩ := setValue_described hreachable (run_regular hrun) hkeys
  exact ⟨names, text, _, s', hkeys, htext, hread, hs', hlive⟩

/-- The logger `root` with a pattern and an appender of its own. -/
def patternRoot : LogDefine where
  name := "root"
  level := .info
  formatter := "%p %m%n"
  appenders := [{ type := 2, level := .error }]

/-- The loggers `b` and `root`. -/
def bAndRoot : LogDefines :=
  ⟨[loggerB, patternRoot], by decide⟩

/-- The nodes of the dumps of a program with these loggers, with their texts. -/
def loggerDocuments : Yaml.Documents where
  texts :=
    let stdout := Node.map [(.scalar "type", .scalar "StdoutLogAppender")]
    let stdoutError := Node.map
      [(.scalar "type", .scalar "StdoutLogAppender"), (.scalar "level", .scalar "ERROR")]
    let b := Node.map
      [(.scalar "name", .scalar "b"), (.scalar "level", .scalar "WARN"),
        (.scalar "formatter", .scalar "%m%n")]
    let root (ap : Node) := Node.map
      [(.scalar "name", .scalar "root"), (.scalar "level", .scalar "INFO"),
        (.scalar "formatter", .scalar "%p %m%n"), (.scalar "appenders", .seq [ap])]
    [(stdout, "type: StdoutLogAppender"),
      (stdoutError, "type: StdoutLogAppender\nlevel: ERROR"),
      (b, "name: b\nlevel: WARN\nformatter: \"%m%n\""),
      (root stdout, "name: root\nlevel: INFO\nformatter: \"%p %m%n\"\n" ++
        "appenders:\n  - type: StdoutLogAppender"),
      (root stdoutError, "name: root\nlevel: INFO\nformatter: \"%p %m%n\"\n" ++
        "appenders:\n  - type: StdoutLogAppender\n    level: ERROR"),
      (.seq [b, root stdout], "- name: b\n  level: WARN\n  formatter: \"%m%n\"\n" ++
        "- name: root\n  level: INFO\n  formatter: \"%p %m%n\"\n" ++
        "  appenders:\n    - type: StdoutLogAppender"),
      (.seq [b, root stdoutError], "- name: b\n  level: WARN\n  formatter: \"%m%n\"\n" ++
        "- name: root\n  level: INFO\n  formatter: \"%p %m%n\"\n" ++
        "  appenders:\n    - type: StdoutLogAppender\n      level: ERROR")]
  nodup := by simp

/-- The level of the appender of `root` is lost. -/
theorem dump_restores_patterns :
  ∃ s names text v s', start.run [ofDefine loggerB, bAndRoot] = some s ∧
    s.manager.toYamlString loggerDocuments.yaml names = some text ∧
    LogDefines.ofText loggerDocuments.yaml text = some v ∧ start.setValue v = some s' ∧
    (s.manager.live "root").map (fun l => l.appenders.map LogAppender.mLevel) = some [.error] ∧
    (s'.manager.live "root").map (fun l => l.appenders.map LogAppender.mLevel) = some [.unknow]
  := by
  have hrun : start.run [ofDefine loggerB, bAndRoot] = some (after [ofDefine loggerB, bAndRoot]) :=
    rfl
  obtain ⟨names, text, v, s', -, htext, hread, hs', hlive⟩ :=
    dump_restores loggerDocuments.faithful hrun
  refine ⟨_, names, text, v, s', hrun, htext, hread, hs', rfl, ?_⟩
  rw [hlive]
  rfl

/-! ### Restoring again -/

/-- A restored logger has the same definition. -/
theorem define_restored (name : String) (l : LiveLogger) :
  l.restored.define name = l.define name
  := by
  have happender : ∀ a : LogAppender, (a.restored l.formatter).define = a.define := by
    rintro ⟨kind, level, formatter, has⟩
    cases kind <;> cases has <;> rfl
  simp [LiveLogger.restored, LiveLogger.define, happender]

/-- The restored program is dumped as the same configuration: restoring it once more changes
nothing. -/
theorem dump_restores_again {yaml : YamlCpp Node} (hyaml : yaml.Faithful) {vs : List LogDefines}
    {s : Logs} (hrun : start.run vs = some s) {names : OrderedSet fun name : String => name}
    (hkeys : s.manager.Keys names) {text : String}
    (htext : s.manager.toYamlString yaml names = some text) {v : LogDefines}
    (hread : LogDefines.ofText yaml text = some v) {s' : Logs}
    (hset : start.setValue v = some s') :
  s'.manager.Keys names ∧ ∃ text', s'.manager.toYamlString yaml names = some text' ∧
    LogDefines.ofText yaml text' = some v
  := by
  have hreachable := run_reachable hrun
  have hmanager := Program.reachable_manager hreachable
  obtain ⟨_, htext', hread'⟩ := LoggerManager.toYamlString_described hyaml
    (LoggerManager.reachable_rooted hmanager) hkeys
  obtain rfl := Option.some.inj (htext.symm.trans htext')
  obtain rfl := Option.some.inj (hread.symm.trans hread')
  obtain ⟨_, hset', hlive⟩ := setValue_described hreachable (run_regular hrun) hkeys
  obtain rfl := Option.some.inj (hset.symm.trans hset')
  have hrun' : start.run [s.manager.described names] = some s' := by simpa [run] using hset
  have hkeys' : s'.manager.Keys names := by
    intro name
    have hnone : s'.manager.live name = none ↔ s.manager.live name = none := by
      rw [hlive, Option.map_eq_none_iff]
    rw [hkeys name]
    simpa [LoggerManager.identity, LoggerManager.live] using not_congr hnone.symm
  have hdescribed : s'.manager.described names = s.manager.described names := by
    apply OrderedSet.ext
    apply List.map_congr_left
    intro name _
    rw [hlive]
    cases s.manager.live name with
    | none => rfl
    | some l => apply define_restored
  use hkeys'
  obtain ⟨text', htext', hread'⟩ := LoggerManager.toYamlString_described hyaml
    (LoggerManager.reachable_rooted (Program.reachable_manager (run_reachable hrun'))) hkeys'
  use text', htext'
  rw [hread', hdescribed]

theorem dump_restores_again_patterns :
  ∃ s names text v s' text', start.run [ofDefine loggerB, bAndRoot] = some s ∧
    s.manager.toYamlString loggerDocuments.yaml names = some text ∧ start.setValue v = some s' ∧
    s'.manager.toYamlString loggerDocuments.yaml names = some text' ∧
    LogDefines.ofText loggerDocuments.yaml text' = LogDefines.ofText loggerDocuments.yaml text
  := by
  have hrun : start.run [ofDefine loggerB, bAndRoot] = some (after [ofDefine loggerB, bAndRoot]) :=
    rfl
  have hmanager := Program.reachable_manager (run_reachable hrun)
  have hyaml := loggerDocuments.faithful
  obtain ⟨names, hkeys⟩ := LoggerManager.exists_keys hmanager
  obtain ⟨text, htext, hread⟩ := LoggerManager.toYamlString_described hyaml
    (LoggerManager.reachable_rooted hmanager) hkeys
  obtain ⟨s', hs', -⟩ := setValue_described (run_reachable hrun) (run_regular hrun) hkeys
  obtain ⟨-, text', htext', hread'⟩ := dump_restores_again hyaml hrun hkeys htext hread hs'
  exact ⟨_, names, text, _, s', text', hrun, htext, hs', htext', hread'.trans hread.symm⟩

/-! ### Programs configured by documents -/

/-- An appender without what the decoder does not read. -/
def Plain (a : LogAppender) : Prop :=
  a.mLevel = .unknow ∧ (a.kind = .stdout → a.mHasFormatter = false)

/-- An appender that has been defined by a decoded definition is plain. -/
theorem plain_of_decoded {d : LogAppenderDefine} (hknown : d.Known) (hd : d.decoded = d)
    {formatter : LogFormatter} {a : LogAppender} (h : d.live formatter = some a) :
  Plain a
  := by
  obtain ⟨hlevel, hstdout⟩ := (LogAppenderDefine.decoded_eq_iff hknown).mp hd
  obtain ⟨type, level, pattern, file⟩ := d
  obtain rfl : level = .unknow := hlevel
  obtain ⟨b, hb, rfl⟩ := Option.map_eq_some_iff.mp h
  obtain ⟨kind, hkind, rfl⟩ := Option.map_eq_some_iff.mp hb
  obtain rfl | rfl : type = 1 ∨ type = 2 := hknown
  · obtain rfl : .file file = kind := by simpa using hkind
    constructor
    · by_cases hempty : pattern = ""
      · simp [hempty, LogAppender.inherit]
      · cases herror : (LogFormatter.new pattern).mError <;>
          simp [hempty, herror, LogAppender.inherit, LogAppender.setFormatter]
    · intro hstd
      by_cases hempty : pattern = ""
      · simp [hempty, LogAppender.inherit]
      · cases herror : (LogFormatter.new pattern).mError <;>
          simp [hempty, herror, LogAppender.inherit, LogAppender.setFormatter] at hstd
  · obtain ⟨rfl, rfl⟩ := hstdout rfl
    constructor <;> simp [LogAppender.inherit]

/-- Some configuration of the history defines the logger `root`. -/
def DefinesRoot (vs : List LogDefines) : Prop :=
  ∃ v ∈ vs, ∃ i, v.find? "root" = some i

/-- Behind a history of decoded values all appenders are plain. -/
theorem run_plain {vs : List LogDefines} {s : Logs} (hrun : start.run vs = some s)
    (hvs : ∀ v ∈ vs, ∀ i ∈ v, ∀ a ∈ i.appenders, a.Known ∧ a.decoded = a) {name : String}
    (hname : name ≠ "root" ∨ DefinesRoot vs) {l : LiveLogger}
    (hl : s.manager.live name = some l) :
  ∀ a ∈ l.appenders, Plain a
  := by
  induction vs using List.reverseRecOn generalizing s l with
  | nil =>
      obtain rfl : start = s := by simpa [run] using hrun
      obtain ⟨l', hl', -⟩ := Option.map_eq_some_iff.mp hl
      obtain hname | ⟨v, hv, -⟩ := hname
      · apply absurd (LoggerManager.new_mLoggers hl').1 hname
      · cases hv
  | append_singleton vs v ih =>
      obtain ⟨t, ht, hv⟩ := run_append.mp hrun
      have hset : t.setValue v = some s := by simpa [run] using hv
      obtain ⟨hvs, hdecoded⟩ := List.forall_mem_append.mp hvs
      have htracks := run_tracksName start_initial ht name
      obtain ⟨-, heffect⟩ := setValue_effect htracks.wf hset
      cases heffect name with
      | kept d i hd hi hhead hstored hlive =>
          rw [hlive] at hl
          apply ih ht hvs _ hl
          by_cases hroot : name = "root"
          · -- the stored definition came with an earlier configuration
            right
            obtain ⟨j, hj, -⟩ := htracks.exists_last hd
            cases hlast : vs.getLast? with
            | none => simp [last, hlast, OrderedSet.empty, OrderedSet.find?] at hj
            | some u =>
                have hu : last vs = u := by simp [last, hlast]
                exact ⟨u, List.mem_of_getLast? hlast, j, by rw [← hroot, ← hu, hj]⟩
          · exact .inl hroot
      | configured i l' hi hstored hlive hconfigured =>
          obtain rfl := Option.some.inj (hlive.symm.trans hl)
          intro a ha
          obtain ⟨hmem, -⟩ := OrderedSet.find?_eq_some.mp hi
          obtain ⟨d, hd, hda⟩ := mem_of_mapM_eq_some hconfigured.appenders ha
          obtain ⟨hknown, hsame⟩ := hdecoded v (List.mem_singleton_self v) i hmem d hd
          apply plain_of_decoded hknown hsame hda
      | reset d hd hv' hstored hlive =>
          obtain rfl := Option.some.inj (hlive.symm.trans hl)
          intro a ha
          cases ha
      | absent hs hv' hstored hlive =>
          rw [hlive] at hl
          apply ih ht hvs _ hl
          obtain hname | ⟨u, hu, i, hi⟩ := hname
          · exact .inl hname
          · by_cases hroot : name = "root"
            · right
              obtain hu | hu := List.mem_append.mp hu
              · exact ⟨u, hu, i, hi⟩
              · obtain rfl := List.mem_singleton.mp hu
                rw [← hroot, hv'] at hi
                cases hi
            · exact .inl hroot

/-- A logger with plain appenders is restored as it was. -/
theorem restored_of_plain {l : LiveLogger} (hl : l.Regular) (h : ∀ a ∈ l.appenders, Plain a) :
  l.restored = l
  := by
  have happenders : l.appenders.map (fun a => a.restored l.formatter) = l.appenders := by
    apply map_eq_self_iff.mpr
    intro a ha
    obtain ⟨hlevel, hstdout⟩ := h a ha
    have hregular := hl.appenders a ha
    obtain ⟨kind, level, formatter, has⟩ := a
    obtain rfl : level = .unknow := hlevel
    cases kind with
    | stdout =>
        obtain rfl : has = false := hstdout rfl
        obtain ⟨p, -, -, hhas⟩ | ⟨hformatter, -⟩ := hregular
        · cases hhas
        · simp [LogAppender.restored, ← hformatter]
    | file mFileName =>
        obtain ⟨p, -, -, hhas⟩ | ⟨hformatter, hhas⟩ := hregular
        · obtain rfl : has = true := hhas
          rfl
        · obtain rfl : has = false := hhas
          simp [LogAppender.restored, ← hformatter]
  rw [LiveLogger.restored, happenders]

/-- A program that has been configured by documents only is restored from its dump exactly,
except that the first appender of `root` loses its level if no document replaced it. -/
theorem dump_restores_documents {yaml : YamlCpp Node} (hyaml : yaml.Faithful) {vs : List LogDefines}
    (hvs : ∀ v ∈ vs, ∃ document, LogDefines.ofText yaml document = some v) {s : Logs}
    (hrun : start.run vs = some s) :
  ∃ names text v s', s.manager.Keys names ∧ s.manager.toYamlString yaml names = some text ∧
    LogDefines.ofText yaml text = some v ∧ start.setValue v = some s' ∧
    ∀ name, name ≠ "root" ∨ DefinesRoot vs → s'.manager.live name = s.manager.live name
  := by
  have hreachable := run_reachable hrun
  have hmanager := Program.reachable_manager hreachable
  obtain ⟨names, hkeys⟩ := LoggerManager.exists_keys hmanager
  obtain ⟨text, htext, hread⟩ := LoggerManager.toYamlString_described hyaml
    (LoggerManager.reachable_rooted hmanager) hkeys
  have hregular := run_regular hrun
  obtain ⟨s', hs', hlive⟩ := setValue_described hreachable hregular hkeys
  have hdecoded : ∀ v ∈ vs, ∀ i ∈ v, ∀ a ∈ i.appenders, a.Known ∧ a.decoded = a := by
    intro v hv
    obtain ⟨document, hdocument⟩ := hvs v hv
    apply LogDefines.decoded_of_ofText hdocument
  refine ⟨names, text, _, s', hkeys, htext, hread, hs', fun name hname => ?_⟩
  rw [hlive]
  cases hl : s.manager.live name with
  | none => rfl
  | some l =>
      rw [Option.map_some, restored_of_plain (hregular name l hl)]
      apply run_plain hrun hdecoded hname hl

/-- The loggers `b` and `root` of a document. -/
def bAndRootRead : LogDefines :=
  ⟨[loggerB, patternRoot.decoded], by decide⟩

theorem dump_restores_documents_loaded :
  ∃ s names text v s', start.run [bAndRootRead] = some s ∧
    s.manager.toYamlString loggerDocuments.yaml names = some text ∧
    LogDefines.ofText loggerDocuments.yaml text = some v ∧ start.setValue v = some s' ∧
    s'.manager.live "b" = s.manager.live "b" ∧ s'.manager.live "root" = s.manager.live "root"
  := by
  have hrun : start.run [bAndRootRead] = some (after [bAndRootRead]) := rfl
  have hyaml := loggerDocuments.faithful
  have hdocuments : ∀ v ∈ [bAndRootRead], ∃ document,
      LogDefines.ofText loggerDocuments.yaml document = some v := by
    intro v hv
    obtain rfl := List.mem_singleton.mp hv
    have hknown : ∀ i ∈ bAndRootRead, ∀ a ∈ i.appenders, a.Known := by
      intro i hi a ha
      obtain rfl | hi := List.mem_cons.mp hi
      · cases ha
      · obtain rfl := List.mem_singleton.mp hi
        obtain rfl := List.mem_singleton.mp ha
        exact .inr rfl
    obtain ⟨v', hread, hlist⟩ := LogDefines.ofText_toText (hyaml.reads_emitElements _) hknown
    obtain rfl : v' = bAndRootRead := OrderedSet.ext hlist
    exact ⟨_, hread⟩
  obtain ⟨names, text, v, s', -, htext, hread, hs', hlive⟩ :=
    dump_restores_documents hyaml hdocuments hrun
  have hroot : DefinesRoot [bAndRootRead] := ⟨_, List.mem_singleton_self _, _, rfl⟩
  exact ⟨_, names, text, v, s', hrun, htext, hread, hs', hlive "b" (.inl (by decide)),
    hlive "root" (.inr hroot)⟩

end Logs

end WbServer
