import Mathlib.Data.String.Basic
import WbServer.Config.Container
import WbServer.Log.Codec
import WbServer.Log.Program

/-!
# Dumping the loggers

`LoggerManager::to_yaml_string` composes the YAML texts of the loggers, which are composed of
those of their appenders. The text can be read as a logs configuration, although it is not
written by the `LexicalCast` of one; `Program.toYamlString_decodes` says which.
-/

namespace WbServer

open Yaml (Node)

/-! ### The code -/

namespace LogAppender

/-- The node in `StdoutLogAppender::to_yaml_string` and `FileLogAppender::to_yaml_string`. -/
def toNode (a : LogAppender) : Node :=
  .ofEntries <|
    (match a.kind with
    | .stdout => [("type", .scalar "StdoutLogAppender")]
    | .file mFileName => [("type", .scalar "FileLogAppender"), ("file", .scalar mFileName)]) ++
    (if a.mLevel ≠ .unknow then [("level", .scalar a.mLevel.toString)] else []) ++
    (match a.mHasFormatter, a.mFormatter with
    | true, some mFormatter => [("formatter", .scalar mFormatter.mPattern)]
    | _, _ => [])

/-- `to_yaml_string` of the two appenders. -/
def toYamlString (yaml : YamlCpp Node) (a : LogAppender) : String :=
  yaml.emit a.toNode

end LogAppender

/-- The node in `Logger::to_yaml_string`, given those of the appenders. -/
def Logger.toNode (l : Logger) (appenders : List Node) : Node :=
  .ofEntries <|
    [("name", .scalar l.mName)] ++
    (if l.mLevel ≠ .unknow then [("level", .scalar l.mLevel.toString)] else []) ++
    [("formatter", .scalar l.mFormatter.mPattern)] ++
    (if appenders ≠ [] then [("appenders", .ofElements appenders)] else [])

namespace LoggerManager

/-- `Logger::to_yaml_string`. -/
def loggerToYamlString (yaml : YamlCpp Node) (s : LoggerManager) (l : Logger) : Option String := do
  let appenders ← l.mAppenders.mapM fun i => yaml.load ((s.heap i).toYamlString yaml)
  pure (yaml.emit (l.toNode appenders))

/-- `LoggerManager::to_yaml_string`, with the keys of `m_loggers` in their order. -/
def toYamlString (yaml : YamlCpp Node) (s : LoggerManager)
    (names : OrderedSet fun name : String => name) : Option String := do
  let nodes ← names.toList.mapM fun name => do
    let l ← s.mLoggers name
    let text ← s.loggerToYamlString yaml l
    yaml.load text
  pure (yaml.emitElements nodes)

end LoggerManager

/-! ### What the decoder reads -/

/-- The pattern of an appender that has a formatter of its own. -/
def LogAppender.ownPattern (a : LogAppender) : String :=
  match a.mHasFormatter, a.mFormatter with
  | true, some mFormatter => mFormatter.mPattern
  | _, _ => ""

/-- The definition that the dump of an appender is read as. -/
def LogAppender.define (a : LogAppender) : LogAppenderDefine :=
  match a.kind with
  | .stdout => { type := 2 }
  | .file mFileName => { type := 1, formatter := a.ownPattern, file := mFileName }

/-- The definition that the dump of a logger is read as. -/
def LiveLogger.define (name : String) (l : LiveLogger) : LogDefine where
  name := name
  level := l.level
  formatter := l.formatter.mPattern
  appenders := l.appenders.map LogAppender.define

/-- What the decoder makes of a dumped appender. -/
theorem LogAppender.ofNode_toNode (a : LogAppender) :
  LogAppenderDefine.ofNode a.toNode = some (some a.define)
  := by
  obtain ⟨kind, level, formatter, has⟩ := a
  cases kind with
  | stdout => simp [LogAppenderDefine.ofNode, toNode, define, Node.asString]
  | file mFileName =>
      by_cases hlevel : level = .unknow <;> cases has <;> cases formatter <;>
        simp [LogAppenderDefine.ofNode, toNode, define, ownPattern, hlevel, Node.asString]

/-- The entries of the node of a logger. -/
theorem Logger.get_toNode (l : Logger) (appenders : List Node) :
  (l.toNode appenders).get "name" = some (some (.scalar l.mName)) ∧
    ((l.toNode appenders).get "level").bind textOr =
      some (if l.mLevel = .unknow then "" else l.mLevel.toString) ∧
    (l.toNode appenders).get "formatter" = some (some (.scalar l.mFormatter.mPattern)) ∧
    (l.toNode appenders).get "appenders" = some (if appenders = [] then none
      else some (.ofElements appenders))
  := by
  by_cases hlevel : l.mLevel = .unknow <;> by_cases happenders : appenders = [] <;>
    simp [toNode, hlevel, happenders, textOr, Node.asString]

theorem Logger.plain_toNode (l : Logger) (appenders : List Node) :
  (l.toNode appenders).plain = l.toNode (appenders.map Node.plain)
  := by
  by_cases hlevel : l.mLevel = .unknow <;> by_cases happenders : appenders = [] <;>
    simp [toNode, Node.plain_ofEntries, Node.plain_ofElements, Node.plain, hlevel, happenders]

/-- What is read of a logger's node, entry by entry. -/
theorem LogDefine.ofNode_eq {n : Node} {name level formatter : String} {nodes : List Node}
    {appenders : List LogAppenderDefine} (hname : n.get "name" = some (some (.scalar name)))
    (hlevel : (n.get "level").bind textOr = some level)
    (hformatter : (n.get "formatter").bind textOr = some formatter)
    (hnodes : n.get "appenders" = some (if nodes = [] then none else some (.ofElements nodes)))
    (happenders : nodes.mapM LogAppenderDefine.ofNode = some (appenders.map some)) :
  ofNode n = some (some
    { name := name
      level := LogLevel.fromString level
      formatter := formatter
      appenders := appenders })
  := by
  obtain ⟨nlevel, hgetLevel, hlevel⟩ := Option.bind_eq_some_iff.mp hlevel
  obtain ⟨nformatter, hgetFormatter, hformatter⟩ := Option.bind_eq_some_iff.mp hformatter
  have hreduce : (appenders.map some).reduceOption = appenders := by
    simpa using reduceOption_map_some id appenders
  by_cases hempty : nodes = []
  · rw [hempty, List.mapM_nil] at happenders
    obtain rfl := List.map_eq_nil_iff.mp (Option.some.inj happenders).symm
    simp [ofNode, hname, hgetLevel, hlevel, hgetFormatter, hformatter, hnodes, hempty,
      Node.asString, List.reduceOption_nil]
  · simp [ofNode, hname, hgetLevel, hlevel, hgetFormatter, hformatter, hnodes, hempty,
      Node.asString, happenders, hreduce]

namespace LoggerManager

variable {yaml : YamlCpp Node} {s : LoggerManager}

/-- The node of a logger is read as its definition. -/
theorem ofNode_toNode (l : Logger) :
  LogDefine.ofNode (l.toNode (l.mAppenders.map fun i => (s.heap i).toNode)) =
    some (some
      (LiveLogger.define l.mName ⟨l.mLevel, l.mFormatter, l.mAppenders.map s.heap⟩))
  := by
  obtain ⟨hname, hlevel, hformatter, hnodes⟩ :=
    l.get_toNode (l.mAppenders.map fun i => (s.heap i).toNode)
  have hread : (l.mAppenders.map fun i => (s.heap i).toNode).mapM LogAppenderDefine.ofNode =
      some ((l.mAppenders.map fun i => (s.heap i).define).map some) := by
    rw [List.mapM_map, List.map_map]
    apply mapM_eq_map fun i _ => LogAppender.ofNode_toNode (s.heap i)
  have hfromString : LogLevel.fromString
      (if l.mLevel = .unknow then "" else l.mLevel.toString) = l.mLevel := by
    split
    case isTrue h => rw [h]; decide
    case isFalse => apply LogLevel.fromString_toString l.mLevel
  have hformatter' : ((l.toNode (l.mAppenders.map fun i => (s.heap i).toNode)).get
      "formatter").bind textOr = some l.mFormatter.mPattern := by
    simp [hformatter, textOr, Node.asString]
  rw [LogDefine.ofNode_eq hname hlevel hformatter' hnodes hread, hfromString]
  simp [LiveLogger.define]

/-! ### The dump -/

/-- The names are the keys of `m_loggers`. -/
def Keys (s : LoggerManager) (names : OrderedSet fun name : String => name) : Prop :=
  ∀ name, name ∈ names ↔ s.identity name ≠ none

/-- The reachable states have finitely many loggers. -/
theorem exists_keys (h : system.Reachable s) :
  ∃ names, s.Keys names
  := by
  apply h.invariant
  · rintro s rfl
    use (OrderedSet.empty _).insert "root"
    intro name
    rw [OrderedSet.mem_insert fun _ _ h => h]
    by_cases hname : name = "root"
    · simp [hname, new_rooted.root]
    · have hnil : name ∉ OrderedSet.empty fun name : String => name := List.not_mem_nil
      simp [hname, hnil, identity, new, addAppender, newAppender, set]
  · rintro op s s' ⟨names, hnames⟩ - hstep
    simp only [system] at hstep
    split at hstep
    case isFalse => cases hstep
    case isTrue =>
      obtain rfl := Option.some.inj hstep
      obtain heq | ⟨name, -, -, heq⟩ := identity_apply op s
      · use names
        intro name
        rw [heq, hnames name]
      · use names.insert name
        intro name'
        rw [heq, OrderedSet.mem_insert fun _ _ h => h, hnames name']
        by_cases hname : name' = name
        · simp [hname]
        · simp [hname]

/-- The configuration that the dump of the loggers is read as. -/
def described (s : LoggerManager) (names : OrderedSet fun name : String => name) : LogDefines :=
  .ofKeys (fun name => ((s.live name).getD LiveLogger.new).define name) (fun _ => rfl) names

/-- A logger is described if it is there. -/
theorem find?_described {names : OrderedSet fun name : String => name} (hkeys : s.Keys names)
    (name : String) :
  (s.described names).find? name = (s.live name).map fun l => l.define name
  := by
  have hmem : name ∈ names ↔ s.live name ≠ none := by
    rw [hkeys name]
    simp [identity, live]
  cases hl : s.live name with
  | none =>
      rw [Option.map_none, Option.eq_none_iff_forall_ne_some]
      intro i hi
      obtain ⟨hname, -⟩ := OrderedSet.find?_ofKeys.mp hi
      apply hmem.mp hname hl
  | some l =>
      apply OrderedSet.find?_ofKeys.mpr
      rw [hl]
      exact ⟨hmem.mpr (by simp [hl]), rfl⟩

/-- The node of the logger that is stored under a name. -/
def loggerNode (s : LoggerManager) (name : String) : Node :=
  match s.mLoggers name with
  | none => .null
  | some l => l.toNode (l.mAppenders.map fun i => (s.heap i).toNode)

/-- Nodes that are loaded one by one, up to their styles. -/
theorem mapM_plain {α : Type} {f : α → Option Node} {g : α → Node} {l : List α}
    (h : ∀ x ∈ l, ∃ n, f x = some n ∧ n.plain = (g x).plain) :
  ∃ nodes, l.mapM f = some nodes ∧ nodes.map Node.plain = (l.map g).map Node.plain
  := by
  induction l with
  | nil =>
      use []
      simp
  | cons x l ih =>
      obtain ⟨hx, hl⟩ := List.forall_mem_cons.mp h
      obtain ⟨n, hn, hplain⟩ := hx
      obtain ⟨nodes, hnodes, hplains⟩ := ih hl
      use n :: nodes
      rw [List.mapM_cons, hn, hnodes, List.map_cons, List.map_cons, List.map_cons, hplain, hplains]
      simp

/-- The body of the loop over the loggers. -/
theorem load_loggerToYamlString (hyaml : yaml.Faithful) {name : String} {l : Logger}
    (hl : s.mLoggers name = some l) :
  ∃ n, (s.loggerToYamlString yaml l).bind yaml.load = some n ∧
    n.plain = (s.loggerNode name).plain
  := by
  obtain ⟨nodes, hnodes, hplains⟩ := mapM_plain (l := l.mAppenders)
    fun i _ => hyaml.load_emit (s.heap i).toNode
  obtain ⟨n, hn, hplain⟩ := hyaml.load_emit (l.toNode nodes)
  use n
  constructor
  · rw [loggerToYamlString]
    simp only [LogAppender.toYamlString, hnodes]
    apply hn
  · rw [hplain, loggerNode, hl, Logger.plain_toNode, hplains, ← Logger.plain_toNode]

/-- What the decoder makes of a dumped logger. -/
theorem ofNode_loggerNode (hrooted : s.Rooted) {name : String} (hname : s.identity name ≠ none) :
  LogDefine.ofNode (s.loggerNode name) =
    some (some (((s.live name).getD LiveLogger.new).define name))
  := by
  obtain ⟨l, hl⟩ := Option.isSome_iff_exists.mp (isSome_mLoggers.mpr hname)
  have hread := ofNode_toNode (s := s) l
  rw [(hrooted.eq hl).1] at hread
  simp [loggerNode, hl, hread, live_eq_some hl]

/-- The dump is a text that is read as the description of the loggers. -/
theorem toYamlString_described (hyaml : yaml.Faithful) (hrooted : s.Rooted)
    {names : OrderedSet fun name : String => name} (hkeys : s.Keys names) :
  ∃ text, s.toYamlString yaml names = some text ∧
    LogDefines.ofText yaml text = some (s.described names)
  := by
  have hload : ∀ name ∈ names.toList, ∃ n, (do
      let l ← s.mLoggers name
      let text ← s.loggerToYamlString yaml l
      yaml.load text) = some n ∧ n.plain = (s.loggerNode name).plain := by
    intro name hname
    obtain ⟨l, hl⟩ := Option.isSome_iff_exists.mp (isSome_mLoggers.mpr ((hkeys name).mp hname))
    rw [hl]
    apply load_loggerToYamlString hyaml hl
  obtain ⟨nodes, hnodes, hplains⟩ := mapM_plain hload
  have hread : nodes.mapM LogDefine.ofNode = some (names.toList.map fun name =>
      some (((s.live name).getD LiveLogger.new).define name)) := by
    rw [← LogDefine.mapM_ofNode_plain, hplains, LogDefine.mapM_ofNode_plain, List.mapM_map]
    apply mapM_eq_map
    intro name hname
    apply ofNode_loggerNode hrooted ((hkeys name).mp hname)
  obtain ⟨n, hn, hplain⟩ := hyaml.reads_emitElements nodes
  use yaml.emitElements nodes
  constructor
  · rw [toYamlString, hnodes]
    rfl
  · simp only [LogDefines.ofText, hn, LogDefine.mapM_ofNode_congr hplain,
      Node.elements_ofElements, hread, Option.bind_eq_bind, Option.bind_some,
      reduceOption_map_some]
    apply congrArg some
    apply OrderedSet.ext
    apply OrderedSet.toList_foldl_insert_empty (s.described names).sorted

end LoggerManager

namespace Program

/-- The dump of the loggers is read back as a configuration that defines exactly these
loggers, with their levels, their patterns, and their appenders. Of the appenders it keeps
what they write to, and the patterns of file appenders that have their own. -/
theorem toYamlString_decodes {yaml : YamlCpp Node} (hyaml : yaml.Faithful) {s : Logs}
    (h : system.Reachable s) :
  ∃ names, s.manager.Keys names ∧
    ∃ text v, s.manager.toYamlString yaml names = some text ∧
      LogDefines.ofText yaml text = some v ∧
      ∀ name, v.find? name = (s.manager.live name).map fun l => l.define name
  := by
  have hmanager := reachable_manager h
  obtain ⟨names, hkeys⟩ := LoggerManager.exists_keys hmanager
  obtain ⟨text, htext, hread⟩ := LoggerManager.toYamlString_described hyaml
    (LoggerManager.reachable_rooted hmanager) hkeys
  use names, hkeys, text, s.manager.described names, htext, hread
  apply LoggerManager.find?_described hkeys

/-- A logger `a` is obtained, and the loggers are given patterns. -/
def patterned : List Step :=
  [.operation (.getLogger "a"), .operation (.setPattern "a" "%m%n"),
    .operation (.setPattern "root" "%p %m%n")]

/-- The nodes of the dump behind `patterned`, with their texts. -/
def patternedDocuments : Yaml.Documents where
  texts :=
    let stdout := Node.map
      [(.scalar "type", .scalar "StdoutLogAppender"), (.scalar "level", .scalar "DEBUG")]
    let a := Node.map
      [(.scalar "name", .scalar "a"), (.scalar "level", .scalar "DEBUG"),
        (.scalar "formatter", .scalar "%m%n")]
    let root := Node.map
      [(.scalar "name", .scalar "root"), (.scalar "level", .scalar "DEBUG"),
        (.scalar "formatter", .scalar "%p %m%n"), (.scalar "appenders", .seq [stdout])]
    [(stdout, "type: StdoutLogAppender\nlevel: DEBUG"),
      (a, "name: a\nlevel: DEBUG\nformatter: \"%m%n\""),
      (root, "name: root\nlevel: DEBUG\nformatter: \"%p %m%n\"\n" ++
        "appenders:\n  - type: StdoutLogAppender\n    level: DEBUG"),
      (.seq [a, root], "- name: a\n  level: DEBUG\n  formatter: \"%m%n\"\n" ++
        "- name: root\n  level: DEBUG\n  formatter: \"%p %m%n\"\n" ++
        "  appenders:\n    - type: StdoutLogAppender\n      level: DEBUG")]
  nodup := by simp

/-- The loggers behind `patterned`. -/
def aAndRoot : OrderedSet fun name : String => name :=
  ⟨["a", "root"], by decide⟩

theorem toYamlString_decodes_patterned :
  ∃ s, system.exec patterned Logs.start = some s ∧ ∃ names text v, s.manager.Keys names ∧
    s.manager.toYamlString patternedDocuments.yaml names = some text ∧
    LogDefines.ofText patternedDocuments.yaml text = some v ∧
    v.find? "a" = some { name := "a", level := .debug, formatter := "%m%n" } ∧
    s.manager.toYamlString patternedDocuments.yaml aAndRoot =
      patternedDocuments.texts.getLast?.map Prod.snd
  := by
  have hstart : system.Reachable Logs.start := .init rfl
  obtain ⟨s, hs⟩ : ∃ s, system.exec patterned Logs.start = some s :=
    Option.isSome_iff_exists.mp rfl
  obtain ⟨names, hkeys, text, v, htext, hread, hfind⟩ :=
    toYamlString_decodes patternedDocuments.faithful (hstart.exec patterned hs)
  have hview : (system.exec patterned Logs.start).map (fun s =>
      (s.manager.live "a").map fun l => l.define "a") =
    some (some { name := "a", level := .debug, formatter := "%m%n" }) := rfl
  have hdump : (system.exec patterned Logs.start).bind (fun s =>
      s.manager.toYamlString patternedDocuments.yaml aAndRoot) =
    patternedDocuments.texts.getLast?.map Prod.snd := by decide +kernel
  rw [hs, Option.map_some, Option.some_inj] at hview
  rw [hs, Option.bind_some] at hdump
  refine ⟨s, hs, names, text, v, hkeys, htext, hread, ?_, hdump⟩
  rw [hfind, hview]

end Program

end WbServer
