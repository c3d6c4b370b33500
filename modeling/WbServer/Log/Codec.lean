import Mathlib.Data.List.ReduceOption
import WbServer.Log.Define
import WbServer.Yaml

/-!
# The codec of the logs configuration

`LexicalCast` between `std::set<LogDefine>` and its YAML text. The decoder does not read
the level of an appender, nor the formatter of a `StdoutLogAppender`, although the encoder
writes them; the file of a `StdoutLogAppender` is not written. `LogDefines.roundTrip_iff`
says that nothing else is lost.
-/

namespace WbServer

open Yaml (Node)

/-! ### The encoder -/

namespace LogAppenderDefine

/-- The node of an appender. -/
def toNode (a : LogAppenderDefine) : Node :=
  .ofEntries <|
    (if a.type = 1 then
      [("type", .scalar "FileLogAppender"), ("file", .scalar a.file)]
    else if a.type = 2 then [("type", .scalar "StdoutLogAppender")]
    else []) ++
    (if a.level ≠ .unknow then [("level", .scalar a.level.toString)] else []) ++
    (if a.formatter ≠ "" then [("formatter", .scalar a.formatter)] else [])

end LogAppenderDefine

namespace LogDefine

/-- The node of a logger. -/
def toNode (i : LogDefine) : Node :=
  .ofEntries <|
    [("name", .scalar i.name)] ++
    (if i.level ≠ .unknow then [("level", .scalar i.level.toString)] else []) ++
    (if i.formatter ≠ "" then [("formatter", .scalar i.formatter)] else []) ++
    (if i.appenders ≠ [] then
      [("appenders", .ofElements (i.appenders.map LogAppenderDefine.toNode))]
    else [])

end LogDefine

namespace LogDefines

/-- The node of a configuration. -/
def toNode (v : LogDefines) : Node :=
  .ofElements (v.toList.map LogDefine.toNode)

/-- `LexicalCast<std::set<LogDefine>, std::string>`. -/
def toText (yaml : YamlCpp Node) (v : LogDefines) : String :=
  yaml.emitElements (v.toList.map LogDefine.toNode)

end LogDefines

/-! ### The decoder -/

/-- The loop body over the appenders; `none` inside if the appender is skipped. -/
def LogAppenderDefine.ofNode (a : Node) : Option (Option LogAppenderDefine) := do
  match ← a.get "type" with
  | none => pure none
  | some t =>
      let type ← t.asString
      if type = "FileLogAppender" then
        match ← a.get "file" with
        | none => pure none
        | some f =>
            let file ← f.asString
            match ← a.get "formatter" with
            | some fmt =>
                let formatter ← fmt.asString
                pure (some { type := 1, file := file, formatter := formatter })
            | none => pure (some { type := 1, file := file })
      else if type = "StdoutLogAppender" then pure (some { type := 2 })
      else pure none

/-- The text of a value that may be undefined. -/
def textOr (n : Option Node) : Option String :=
  match n with
  | some n => n.asString
  | none => some ""

/-- The loop body over the loggers; `none` inside if the logger is skipped. -/
def LogDefine.ofNode (n : Node) : Option (Option LogDefine) := do
  match ← n.get "name" with
  | none => pure none
  | some m =>
      let name ← m.asString
      let level ← textOr (← n.get "level")
      let formatter ← textOr (← n.get "formatter")
      let appenders ← match ← n.get "appenders" with
        | some as => as.elements.mapM LogAppenderDefine.ofNode
        | none => pure []
      pure (some
        { name := name
          level := LogLevel.fromString level
          formatter := formatter
          appenders := appenders.reduceOption })

/-- `LexicalCast<std::string, std::set<LogDefine>>`. -/
def LogDefines.ofText (yaml : YamlCpp Node) (v : String) : Option LogDefines := do
  let node ← yaml.load v
  let defines ← node.elements.mapM LogDefine.ofNode
  pure (defines.reduceOption.foldl OrderedSet.insert (OrderedSet.empty LogDefine.name))

/-! ### Styles -/

/-- The decoder does not see the styles of the nodes. -/
theorem LogAppenderDefine.ofNode_plain (a : Node) :
  ofNode a.plain = ofNode a
  := by
  simp only [ofNode, Node.get_plain]
  cases a.get "type" with
  | none => rfl
  | some type =>
      cases type with
      | none => rfl
      | some t =>
          cases a.get "file" with
          | none => simp
          | some file =>
              cases file with
              | none => simp
              | some f =>
                  cases a.get "formatter" with
                  | none => simp
                  | some formatter => cases formatter <;> simp

/-- The style of a node does not matter for its text. -/
theorem textOr_plain (n : Option Node) :
  textOr (n.map Node.plain) = textOr n
  := by
  cases n with
  | none => rfl
  | some n => apply n.asString_plain

/-- The decoder does not look at the styles of nodes. -/
theorem LogDefine.ofNode_plain (n : Node) :
  ofNode n.plain = ofNode n
  := by
  have happenders : ∀ as : Node, as.plain.elements.mapM LogAppenderDefine.ofNode =
      as.elements.mapM LogAppenderDefine.ofNode := by
    intro as
    have hplain : LogAppenderDefine.ofNode ∘ Node.plain = LogAppenderDefine.ofNode :=
      funext LogAppenderDefine.ofNode_plain
    rw [Node.elements_plain, List.mapM_map, hplain]
  have hmap : ∀ (key : String) {β : Type} (f : Option Node → Option β),
      (n.plain.get key).bind f = (n.get key).bind fun v => f (v.map Node.plain) := by
    intro key β f
    rw [Node.get_plain, Option.bind_map]
    rfl
  simp only [ofNode, Option.bind_eq_bind, hmap, textOr_plain]
  cases n.get "name" with
  | none => rfl
  | some name =>
      cases name with
      | none => rfl
      | some m =>
          simp only [Option.bind_some, Option.map_some, Node.asString_plain]
          cases n.get "appenders" with
          | none => rfl
          | some appenders =>
              cases appenders with
              | none => rfl
              | some as => simp only [Option.bind_some, Option.map_some, happenders]

theorem LogDefine.mapM_ofNode_plain (nodes : List Node) :
  (nodes.map Node.plain).mapM ofNode = nodes.mapM ofNode
  := by
  have hplain : ofNode ∘ Node.plain = ofNode := funext ofNode_plain
  rw [List.mapM_map, hplain]

/-- Nodes with the same content are decoded alike. -/
theorem LogDefine.mapM_ofNode_congr {n n' : Node} (h : n.plain = n'.plain) :
  n.elements.mapM ofNode = n'.elements.mapM ofNode
  := by
  rw [← mapM_ofNode_plain n.elements, ← Node.elements_plain, h, Node.elements_plain,
    mapM_ofNode_plain]

/-! ### The round trip -/

/-- A file or a standard output appender. -/
def LogAppenderDefine.Known (a : LogAppenderDefine) : Prop :=
  a.type = 1 ∨ a.type = 2

/-- What is left of an appender behind the codec. -/
def LogAppenderDefine.decoded (a : LogAppenderDefine) : LogAppenderDefine :=
  if a.type = 1 then { type := 1, formatter := a.formatter, file := a.file } else { type := 2 }

/-- What is left of a logger behind the codec. -/
def LogDefine.decoded (i : LogDefine) : LogDefine :=
  { i with appenders := i.appenders.map LogAppenderDefine.decoded }

/-- An appender that is encoded and decoded. -/
theorem LogAppenderDefine.ofNode_toNode {a : LogAppenderDefine} (h : a.Known) :
  ofNode a.toNode = some (some a.decoded)
  := by
  obtain h | h := h
  · by_cases hlevel : a.level = .unknow <;> by_cases hformatter : a.formatter = "" <;>
      simp [ofNode, toNode, decoded, h, hlevel, hformatter, Node.asString]
  · by_cases hlevel : a.level = .unknow <;> by_cases hformatter : a.formatter = "" <;>
      simp [ofNode, toNode, decoded, h, hlevel, hformatter, Node.asString]

/-- Reading nodes that are all accepted. -/
theorem mapM_eq_map {α β : Type} {f : α → Option (Option β)} {g : α → β} {l : List α}
    (h : ∀ x ∈ l, f x = some (some (g x))) :
  l.mapM f = some (l.map fun x => some (g x))
  := by
  induction l with
  | nil => rfl
  | cons x l ih =>
      obtain ⟨hx, hl⟩ := List.forall_mem_cons.mp h
      simp [List.mapM_cons, hx, ih hl]

theorem reduceOption_map_some {α β : Type} (f : α → β) (l : List α) :
  (l.map fun x => some (f x)).reduceOption = l.map f
  := by
  induction l with
  | nil => rfl
  | cons x l ih => simp [List.reduceOption_cons_of_some, ih]

theorem map_eq_self_iff {α : Type} {f : α → α} {l : List α} :
  l.map f = l ↔ ∀ x ∈ l, f x = x
  := by
  have h := List.map_inj_left (l := l) (f := f) (g := id)
  simpa using h

namespace LogDefine

/-- The optional entries of the node of a logger. -/
theorem get_toNode (i : LogDefine) :
  i.toNode.get "name" = some (some (.scalar i.name)) ∧
    (i.toNode.get "level").bind textOr =
      some (if i.level = .unknow then "" else i.level.toString) ∧
    (i.toNode.get "formatter").bind textOr = some i.formatter ∧
    i.toNode.get "appenders" = some (if i.appenders = [] then none
      else some (.ofElements (i.appenders.map LogAppenderDefine.toNode)))
  := by
  by_cases hlevel : i.level = .unknow <;> by_cases hformatter : i.formatter = "" <;>
    by_cases happenders : i.appenders = [] <;>
    simp [toNode, hlevel, hformatter, happenders, textOr, Node.asString]

/-- A logger that is encoded and decoded. -/
theorem ofNode_toNode {i : LogDefine} (h : ∀ a ∈ i.appenders, a.Known) :
  ofNode i.toNode = some (some i.decoded)
  := by
  obtain ⟨hname, hlevel, hformatter, happenders⟩ := i.get_toNode
  have hread : (i.appenders.map LogAppenderDefine.toNode).mapM LogAppenderDefine.ofNode =
      some (i.appenders.map fun a => some a.decoded) := by
    rw [List.mapM_map]
    apply mapM_eq_map fun a ha => LogAppenderDefine.ofNode_toNode (h a ha)
  have hfromString : LogLevel.fromString
      (if i.level = .unknow then "" else i.level.toString) = i.level := by
    split
    case isTrue h => rw [h]; decide
    case isFalse => apply LogLevel.fromString_toString i.level
  simp only [Option.bind_eq_some_iff] at hlevel hformatter
  obtain ⟨nlevel, hgetLevel, hlevel⟩ := hlevel
  obtain ⟨nformatter, hgetFormatter, hformatter⟩ := hformatter
  by_cases hempty : i.appenders = []
  · simp [ofNode, hname, hgetLevel, hlevel, hgetFormatter, hformatter, happenders, hempty,
      Node.asString, hfromString, decoded, List.reduceOption_nil]
  · simp [ofNode, hname, hgetLevel, hlevel, hgetFormatter, hformatter, happenders, hempty,
      Node.asString, hfromString, decoded, hread, reduceOption_map_some]

end LogDefine

/-- What the decoder keeps of an appender. -/
theorem LogAppenderDefine.decoded_eq_iff {a : LogAppenderDefine} (h : a.Known) :
  a.decoded = a ↔ a.level = .unknow ∧ (a.type = 2 → a.formatter = "" ∧ a.file = "")
  := by
  obtain ⟨type, level, formatter, file⟩ := a
  obtain rfl | rfl := h
  · simp [decoded, eq_comm]
  · simp [decoded, eq_comm]

/-- The decoder keeps a logger if it keeps its appenders. -/
theorem LogDefine.decoded_eq_iff {i : LogDefine} :
  i.decoded = i ↔ ∀ a ∈ i.appenders, a.decoded = a
  := by
  obtain ⟨name, level, formatter, appenders⟩ := i
  simp [decoded, map_eq_self_iff]

/-! ### What is decoded -/

theorem mapM_eq_some_map {α β : Type} {f : α → Option β} {g : α → β} {l : List α}
    (h : ∀ x ∈ l, f x = some (g x)) :
  l.mapM f = some (l.map g)
  := by
  induction l with
  | nil => rfl
  | cons x l ih =>
      obtain ⟨hx, hl⟩ := List.forall_mem_cons.mp h
      simp [List.mapM_cons, hx, ih hl]

theorem mem_of_mapM_eq_some {α β : Type} {f : α → Option β} {l : List α} {ys : List β}
    (h : l.mapM f = some ys) {y : β} (hy : y ∈ ys) :
  ∃ x ∈ l, f x = some y
  := by
  induction l generalizing ys with
  | nil =>
      obtain rfl : [] = ys := by simpa using h
      cases hy
  | cons x l ih =>
      simp only [List.mapM_cons, Option.bind_eq_bind, Option.bind_eq_some_iff, Option.pure_def,
        Option.some_inj] at h
      obtain ⟨z, hz, zs, hzs, rfl⟩ := h
      obtain rfl | hy := List.mem_cons.mp hy
      · exact ⟨x, List.mem_cons_self, hz⟩
      · obtain ⟨x', hx', hy⟩ := ih hzs hy
        exact ⟨x', List.mem_cons_of_mem x hx', hy⟩

/-- The decoder makes no appender that the codec would change. -/
theorem LogAppenderDefine.decoded_of_ofNode {n : Node} {a : LogAppenderDefine}
    (h : ofNode n = some (some a)) :
  a.Known ∧ a.decoded = a
  := by
  simp only [ofNode, Option.bind_eq_bind, Option.bind_eq_some_iff, Option.pure_def] at h
  obtain ⟨type, -, h⟩ := h
  split at h
  case h_1 => cases h
  case h_2 t =>
    obtain ⟨text, -, h⟩ := Option.bind_eq_some_iff.mp h
    split at h
    case isTrue =>
      obtain ⟨file, -, h⟩ := Option.bind_eq_some_iff.mp h
      split at h
      case h_1 => cases h
      case h_2 f =>
        obtain ⟨name, -, h⟩ := Option.bind_eq_some_iff.mp h
        obtain ⟨formatter, -, h⟩ := Option.bind_eq_some_iff.mp h
        split at h
        case h_1 fmt =>
          obtain ⟨pattern, -, h⟩ := Option.bind_eq_some_iff.mp h
          obtain rfl := Option.some.inj (Option.some.inj h)
          exact ⟨.inl rfl, rfl⟩
        case h_2 =>
          obtain rfl := Option.some.inj (Option.some.inj h)
          exact ⟨.inl rfl, rfl⟩
    case isFalse =>
      split at h
      case isTrue =>
        obtain rfl := Option.some.inj (Option.some.inj h)
        exact ⟨.inr rfl, rfl⟩
      case isFalse => cases h

/-- What has been decoded is of a known type and stays the same when it is decoded again. -/
theorem LogDefine.decoded_of_ofNode {n : Node} {i : LogDefine} (h : ofNode n = some (some i)) :
  ∀ a ∈ i.appenders, a.Known ∧ a.decoded = a
  := by
  simp only [ofNode, Option.bind_eq_bind, Option.bind_eq_some_iff, Option.pure_def] at h
  obtain ⟨name, -, h⟩ := h
  split at h
  case h_1 => cases h
  case h_2 m =>
    simp only [Option.bind_eq_some_iff] at h
    obtain ⟨_, -, _, -, _, -, _, -, _, -, nodes, -, h⟩ := h
    cases nodes with
    | some as =>
        obtain ⟨appenders, happenders, h⟩ := Option.bind_eq_some_iff.mp h
        obtain rfl := Option.some.inj (Option.some.inj h)
        intro a ha
        obtain ⟨x, -, hx⟩ := mem_of_mapM_eq_some happenders (List.reduceOption_mem_iff.mp ha)
        apply LogAppenderDefine.decoded_of_ofNode hx
    | none =>
        obtain rfl := Option.some.inj (Option.some.inj h)
        simp [List.reduceOption_nil]

/-- Every configuration that is read from a text is left unchanged by the codec. -/
theorem LogDefines.decoded_of_ofText {yaml : YamlCpp Node} {text : String} {v : LogDefines}
    (h : ofText yaml text = some v) :
  ∀ i ∈ v, ∀ a ∈ i.appenders, a.Known ∧ a.decoded = a
  := by
  simp only [ofText, Option.bind_eq_bind, Option.bind_eq_some_iff, Option.pure_def,
    Option.some_inj] at h
  obtain ⟨node, -, defines, hdefines, rfl⟩ := h
  intro i hi
  obtain hi | hi := OrderedSet.mem_foldl_insert hi
  · cases hi
  · rw [List.reduceOption_mem_iff] at hi
    obtain ⟨n, -, hn⟩ := mem_of_mapM_eq_some hdefines hi
    apply LogDefine.decoded_of_ofNode hn

namespace LogDefines

/-- The loggers keep their names, and with them their order. -/
theorem ofText_toText {yaml : YamlCpp Node} {v : LogDefines}
    (hyaml : yaml.Reads (v.toText yaml) v.toNode) (h : ∀ i ∈ v, ∀ a ∈ i.appenders, a.Known) :
  ∃ v', ofText yaml (v.toText yaml) = some v' ∧ v'.toList = v.toList.map LogDefine.decoded
  := by
  have hread : (v.toList.map LogDefine.toNode).mapM LogDefine.ofNode =
      some (v.toList.map fun i => some i.decoded) := by
    rw [List.mapM_map]
    apply mapM_eq_map fun i hi => LogDefine.ofNode_toNode (h i hi)
  have hsorted : (v.toList.map LogDefine.decoded).Pairwise fun i j => i.name < j.name :=
    List.pairwise_map.mpr v.sorted
  obtain ⟨n, hload, hn⟩ := hyaml
  have helements : v.toNode.elements = v.toList.map LogDefine.toNode :=
    Node.elements_ofElements _
  refine ⟨_, ?_, OrderedSet.toList_foldl_insert_empty hsorted⟩
  simp [ofText, hload, LogDefine.mapM_ofNode_congr hn, helements, hread, reduceOption_map_some]

/-- Every field of every logger and appender comes back if and only if no appender has a
level, and no standard output appender has a formatter or a file. -/
theorem roundTrip_iff (yaml : YamlCpp Node) (v : LogDefines)
    (hyaml : yaml.Reads (v.toText yaml) v.toNode) (h : ∀ i ∈ v, ∀ a ∈ i.appenders, a.Known) :
  ofText yaml (v.toText yaml) = some v ↔
    ∀ i ∈ v, ∀ a ∈ i.appenders,
      a.level = .unknow ∧ (a.type = 2 → a.formatter = "" ∧ a.file = "")
  := by
  obtain ⟨v', hv', hlist⟩ := ofText_toText hyaml h
  have heq : some v' = some v ↔ ∀ i ∈ v, i.decoded = i := by
    rw [Option.some_inj, OrderedSet.ext_iff, hlist, map_eq_self_iff]
    rfl
  rw [hv', heq]
  apply forall₂_congr
  intro i hi
  rw [LogDefine.decoded_eq_iff]
  apply forall₂_congr fun a ha => LogAppenderDefine.decoded_eq_iff (h i hi a ha)

/-- A logger that writes to a file. -/
def toFile : LogDefines :=
  ⟨[{ name := "a", level := .debug, appenders := [{ type := 1, file := "a.txt" }] }],
    List.pairwise_singleton _ _⟩

/-- Its YAML text. -/
def toFileText : String :=
  "- name: a\n  level: DEBUG\n  appenders:\n    - type: FileLogAppender\n      file: a.txt"

theorem roundTrip_iff_toFile :
  ofText (.ofDocument toFileText toFile.toNode) toFileText = some toFile
  := by
  have hreads : (YamlCpp.ofDocument toFileText toFile.toNode).Reads toFileText toFile.toNode :=
    ⟨toFile.toNode, rfl, rfl⟩
  apply (roundTrip_iff (.ofDocument toFileText toFile.toNode) toFile hreads _).mpr
  · intro i hi a ha
    obtain rfl := List.mem_singleton.mp hi
    obtain rfl := List.mem_singleton.mp ha
    simp
  · intro i hi a ha
    obtain rfl := List.mem_singleton.mp hi
    obtain rfl := List.mem_singleton.mp ha
    exact .inl rfl

/-- A logger that writes to the standard output, from level `INFO` on. -/
def toStdout : LogDefines :=
  ⟨[{ name := "a", appenders := [{ type := 2, level := .info }] }],
    List.pairwise_singleton _ _⟩

/-- Its YAML text. -/
def toStdoutText : String :=
  "- name: a\n  appenders:\n    - type: StdoutLogAppender\n      level: INFO"

/-- The level of the appender is lost. -/
theorem roundTrip_loses_level :
  let yaml := YamlCpp.ofDocument toStdoutText toStdout.toNode
  yaml.Reads (toStdout.toText yaml) toStdout.toNode ∧
    (ofText yaml (toStdout.toText yaml)).map (fun v => v.toList.map LogDefine.appenders) =
      some [[{ type := 2 }]] ∧
    ofText yaml (toStdout.toText yaml) ≠ some toStdout
  := by
  refine ⟨⟨_, rfl, rfl⟩, rfl, fun h => ?_⟩
  have happenders := congrArg (Option.map fun v => v.toList.map LogDefine.appenders) h
  revert happenders
  decide

end LogDefines

end WbServer
