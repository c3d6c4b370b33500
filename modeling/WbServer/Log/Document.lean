import WbServer.Config.Load
import WbServer.Log.Codec
import WbServer.Log.History

/-!
# Configurations from documents

`Config::load_from_yaml` in a program with the variable `logs`, whose only listener is that
of `LogIniter`. A document that has been read has only appenders that the listener can
construct, so that it never uses a null pointer; and loading documents is a history of
`set_value` with the values that the documents assign to `logs`, in their order
(`Config.loads_run`).
-/

namespace WbServer

open Yaml (Node)

/-! ### Configurations that can be stored -/

/-- A loop whose iterations never fail does not fail. -/
theorem foldlM_of_forall {α σ : Type} {f : σ → α → Option σ} {l : List α}
    (h : ∀ x ∈ l, ∀ s, ∃ s', f s x = some s') (s : σ) :
  ∃ s', l.foldlM f s = some s'
  := by
  induction l generalizing s with
  | nil => exact ⟨s, rfl⟩
  | cons x l ih =>
      obtain ⟨hx, hl⟩ := List.forall_mem_cons.mp h
      obtain ⟨t, ht⟩ := hx s
      obtain ⟨s', hs'⟩ := ih hl t
      use s'
      simpa [ht] using hs'

/-- The listener uses no null pointer if all appenders are known. -/
theorem LoggerManager.onChange_of_known (oldValue : LogDefines) {newValue : LogDefines}
    (h : ∀ i ∈ newValue, ∀ a ∈ i.appenders, a.Known) (s : LoggerManager) :
  ∃ s', onChange oldValue newValue s = some s'
  := by
  have hconfigure : ∀ i ∈ newValue, ∀ s, ∃ s', configure s i = some s' := by
    intro i hi s
    apply foldlM_of_forall
    intro a ha t
    obtain htype | htype := h i hi a ha
    · simp [attach, LogAppenderDefine.newAppender, htype]
    · simp [attach, LogAppenderDefine.newAppender, htype]
  have hupdate : ∀ i ∈ newValue.toList, ∀ s, ∃ s', update oldValue s i = some s' := by
    intro i hi s
    unfold update
    split
    · apply hconfigure i hi
    · split
      · apply hconfigure i hi
      · use s
  obtain ⟨t, ht⟩ := foldlM_of_forall hupdate s
  use oldValue.toList.foldl (remove newValue) t
  simp [onChange, ht]

namespace Logs

/-- Both outcomes of a call with known appenders. -/
theorem setValue_of_known (s : Logs) {v : LogDefines} (h : ∀ i ∈ v, ∀ a ∈ i.appenders, a.Known) :
  (LogDefines.eq v s.defines = true ∧ s.setValue v = some s) ∨
    LogDefines.eq v s.defines = false ∧ ∃ m, s.manager.onChange s.defines v = some m ∧
      s.setValue v = some { defines := v, manager := m }
  := by
  by_cases hheads : s.defines.heads = v.heads
  · left
    use LogDefines.eq_iff.mpr hheads.symm
    rw [setValue, LogDefines.setValue_of_heads_eq _ _ hheads]
  · right
    have hne := LogDefines.eq_false hheads
    obtain ⟨m, hm⟩ := s.manager.onChange_of_known s.defines h
    use hne, m, hm
    simp [setValue, LogDefines.setValue, ConfigVar.setValue, hne, ConfigVar.notify, listener, hm]

end Logs

/-! ### The variable `logs` -/

/-- The variable `g_log_defines` of a registry. -/
structure LogsVariable (R : Registry) (yaml : YamlCpp Node) where
  registered : R.registered "logs" = true
  defines : R.T "logs" → LogDefines
  fromStr : ∀ text, (R.fromStr "logs" text).map defines = LogDefines.ofText yaml text
  eq : ∀ x y, R.eq "logs" x y = LogDefines.eq (defines x) (defines y)

namespace Config

variable {R : Registry} {yaml : YamlCpp Node}

/-- The configuration holds the value of `logs` and acts on its loggers; the listener of
`LogIniter` is the only one that does. -/
structure Holds (L : LogsVariable R yaml) (c : Config R LoggerManager Unit) (s : Logs) :
    Prop where
  stored : L.defines (c.vars "logs").mVal = s.defines
  world : c.world = s.manager
  listener : ∃ key, (c.vars "logs").mCbs =
    [(key, fun old new m => Logs.listener (L.defines old) (L.defines new) m)]
  others : ∀ name ≠ "logs", ∀ cb ∈ (c.vars name).mCbs, ∀ old new m, (cb.2 old new m).1 = m

/-- What a document assigns to `logs`, in its order. -/
def logsOf (L : LogsVariable R yaml) (root : Node) : List LogDefines :=
  (assignments R yaml.emit "logs" root).map L.defines

/-- Listeners that do not change the world. -/
theorem notify_world {T W ε : Type} (old new : T) {cbs : List (ℕ × Listener T W ε)}
    (h : ∀ cb ∈ cbs, ∀ old new w, (cb.2 old new w).1 = w) (w : W) :
  (ConfigVar.notify old new cbs w).1 = w
  := by
  induction cbs generalizing w with
  | nil => rfl
  | cons cb cbs ih =>
      obtain ⟨key, f⟩ := cb
      obtain ⟨hf, hcbs⟩ := List.forall_mem_cons.mp h
      have hw : (f old new w).1 = w := hf old new w
      rcases hr : f old new w with ⟨w', _ | e⟩
      · rw [hr] at hw
        obtain rfl : w' = w := hw
        simpa [ConfigVar.notify, hr] using ih hcbs w'
      · rw [hr] at hw
        simpa [ConfigVar.notify, hr] using hw

/-- A `set_value` whose listeners do not change the world. -/
theorem setValue_world {T W ε : Type} {eq : T → T → Bool} {var : ConfigVar T W ε} {val : T} {w : W}
    (h : ∀ cb ∈ var.mCbs, ∀ old new w, (cb.2 old new w).1 = w) :
  (ConfigVar.setValue eq var val w).world = w
  := by
  have hnotify := notify_world var.mVal val h w
  unfold ConfigVar.setValue
  split
  · rfl
  · rcases hr : ConfigVar.notify var.mVal val var.mCbs w with ⟨w', calls, _ | e⟩
    · rw [hr] at hnotify
      apply hnotify
    · rw [hr] at hnotify
      apply hnotify

/-- A value for another variable. -/
theorem Holds.update_other {L : LogsVariable R yaml} {c : Config R LoggerManager Unit} {s : Logs}
    (h : Holds L c s) {key : String} (hkey : key ≠ "logs") (text : String)
    (calls : List (String × ℕ)) :
  let u := (ConfigVar.fromString (R.fromStr key) (R.eq key) (c.vars key) text c.world).1
  Holds L { vars := Function.update c.vars key u.var, world := u.world, calls := calls } s
  := by
  intro u
  have hworld : u.world = c.world := by
    unfold u ConfigVar.fromString
    split
    · rfl
    · apply setValue_world (h.others key hkey)
  constructor
  case stored => simpa [hkey.symm] using h.stored
  case world => rw [← h.world, ← hworld]
  case listener => simpa [hkey.symm] using h.listener
  case others =>
    intro name hname
    by_cases hsame : name = key
    · subst hsame
      simpa [u] using h.others name hname
    · simpa [hsame] using h.others name hname

/-- A value for `logs` that is converted is stored as by `set_value`. -/
theorem Holds.update_logs {L : LogsVariable R yaml} {c : Config R LoggerManager Unit} {s : Logs}
    (h : Holds L c s) {text : String} {v : R.T "logs"} (hv : R.fromStr "logs" text = some v)
    (calls : List (String × ℕ)) :
  let u := (ConfigVar.fromString (R.fromStr "logs") (R.eq "logs") (c.vars "logs") text
    c.world).1
  ∃ s', s.setValue (L.defines v) = some s' ∧
    Holds L { vars := Function.update c.vars "logs" u.var, world := u.world, calls := calls } s'
  := by
  intro u
  have hread : LogDefines.ofText yaml text = some (L.defines v) := by
    rw [← L.fromStr, hv, Option.map_some]
  have hknown : ∀ i ∈ L.defines v, ∀ a ∈ i.appenders, a.Known := fun i hi a ha =>
    (LogDefines.decoded_of_ofText hread i hi a ha).1
  have heq : R.eq "logs" v (c.vars "logs").mVal = LogDefines.eq (L.defines v) s.defines := by
    rw [L.eq, h.stored]
  have hothers : ∀ var, ∀ name ≠ "logs", ∀ cb ∈ (Function.update c.vars "logs" var name).mCbs,
      ∀ old new m, (cb.2 old new m).1 = m := by
    intro var name hname
    rw [Function.update_of_ne hname]
    apply h.others name hname
  have hu : u = { ConfigVar.setValue (R.eq "logs") (c.vars "logs") v c.world with
      thrown := none } := by
    unfold u ConfigVar.fromString
    rw [hv]
  obtain ⟨hsame, hset⟩ | ⟨hne, m, hm, hset⟩ := s.setValue_of_known hknown
  · have huvar : u.var = c.vars "logs" ∧ u.world = c.world := by
      rw [hu, ConfigVar.setValue_of_eq (heq.trans hsame)]
      exact ⟨rfl, rfl⟩
    use s, hset
    rw [huvar.1, huvar.2, Function.update_eq_self]
    exact ⟨h.stored, h.world, h.listener, h.others⟩
  · obtain ⟨key, hcbs⟩ := h.listener
    have huvar : u.var = { c.vars "logs" with mVal := v } ∧ u.world = m := by
      have hcall : Logs.listener (L.defines (c.vars "logs").mVal) (L.defines v) c.world =
          (m, none) := by
        rw [h.stored, h.world, Logs.listener, hm]
      rw [hu]
      simp [ConfigVar.setValue, heq, hne, hcbs, ConfigVar.notify, hcall]
    use { defines := L.defines v, manager := m }, hset
    constructor
    case stored => simp [huvar.1]
    case world => apply huvar.2
    case listener => exact ⟨key, by simp [huvar.1, hcbs]⟩
    case others => apply hothers

/-- One node of the flattened document. -/
theorem Holds.loadNode {L : LogsVariable R yaml} {c : Config R LoggerManager Unit} {s : Logs}
    (h : Holds L c s) (i : String × Node) :
  ∃ s', s.run ((assigned R yaml.emit "logs" i).toList.map L.defines) = some s' ∧
    Holds L (loadNode yaml.emit c i) s'
  := by
  simp only [Config.loadNode, assigned]
  by_cases hempty : i.1 = ""
  · refine ⟨s, ?_, by simpa [hempty] using h⟩
    simp [hempty, Logs.run]
  · by_cases hkey : toLower i.1 = "logs"
    · rw [if_neg hempty, hkey, if_pos L.registered, if_pos ⟨hempty, rfl⟩]
      cases hv : R.fromStr "logs" (text yaml.emit i.2) with
      | none =>
          use s, rfl
          rw [ConfigVar.fromString_of_none hv, Function.update_eq_self]
          exact ⟨h.stored, h.world, h.listener, h.others⟩
      | some v =>
          obtain ⟨s', hset, hs'⟩ := h.update_logs hv _
          refine ⟨s', by simpa [Logs.run] using hset, hs'⟩
    · rw [if_neg hempty, if_neg fun hboth => hkey hboth.2]
      use s, rfl
      split
      · apply h.update_other hkey
      · apply h

/-- The loop over the flattened document. -/
theorem Holds.foldl_loadNode {L : LogsVariable R yaml} {c : Config R LoggerManager Unit}
    {s : Logs} (h : Holds L c s) (l : List (String × Node)) :
  ∃ s', s.run ((l.filterMap (assigned R yaml.emit "logs")).map L.defines) = some s' ∧
    Holds L (l.foldl (Config.loadNode yaml.emit) c) s'
  := by
  induction l generalizing c s with
  | nil => exact ⟨s, rfl, h⟩
  | cons i l ih =>
      obtain ⟨t, ht, hholds⟩ := h.loadNode i
      obtain ⟨s', hs', hholds'⟩ := ih hholds
      refine ⟨s', ?_, hholds'⟩
      have hboth := Logs.run_append.mpr ⟨t, ht, hs'⟩
      cases hi : assigned R yaml.emit "logs" i with
      | none => simpa [hi] using hboth
      | some v => simpa [hi] using hboth

/-- A document stores the sets that it has for `logs`, one after the other. -/
theorem Holds.loadFromYaml {L : LogsVariable R yaml} {c : Config R LoggerManager Unit}
    {s : Logs} (h : Holds L c s) (root : Node) :
  ∃ s', s.run (logsOf L root) = some s' ∧ Holds L (loadFromYaml yaml.emit root c) s'
  := by
  have hlist : listAllMenmber "" root =
      (root.preorder []).map fun p => (Node.dottedPath p.1, p.2) := listAllMenmber_eq [] root
  have hall := h.foldl_loadNode (listAllMenmber "" root)
  rw [hlist, List.filterMap_map] at hall
  rw [Config.loadFromYaml, hlist]
  apply hall

/-- Loading documents, one after the other. -/
theorem Holds.loads {L : LogsVariable R yaml} {c : Config R LoggerManager Unit} {s : Logs}
    (h : Holds L c s) (roots : List Node) :
  ∃ s', s.run (roots.flatMap (logsOf L)) = some s' ∧
    Holds L (roots.foldl (fun c root => Config.loadFromYaml yaml.emit root c) c) s'
  := by
  induction roots generalizing c s with
  | nil => exact ⟨s, rfl, h⟩
  | cons root roots ih =>
      obtain ⟨t, ht, hholds⟩ := h.loadFromYaml root
      obtain ⟨s', hs', hholds'⟩ := ih hholds
      refine ⟨s', ?_, hholds'⟩
      rw [List.flatMap_cons]
      exact Logs.run_append.mpr ⟨t, ht, hs'⟩

/-! ### The loggers behind any documents -/

/-- A logger that a history defines and its last value does not is reset. -/
theorem run_removed {s₀ s : Logs} (h₀ : s₀.Initial) {vs : List LogDefines}
    (hrun : s₀.run vs = some s) {v : LogDefines} (hv : v ∈ vs) {d : LogDefine} (hd : d ∈ v)
    (hnone : (Logs.last vs).find? d.name = none) :
  ∃ l, s.manager.live d.name = some l ∧ l.level = .unknow ∧ l.appenders = []
  := by
  obtain ⟨us, us', rfl⟩ := List.append_of_mem hv
  have hsplit : us ++ v :: us' = (us ++ [v]) ++ us' := by simp
  rw [hsplit] at hrun hnone
  obtain ⟨t, ht, hrest⟩ := Logs.run_append.mp hrun
  have hfind : (Logs.last (us ++ [v])).find? d.name = some d := by
    rw [Logs.last_concat]
    apply OrderedSet.find?_key hd
  obtain ⟨e, he, -⟩ := (Logs.run_tracksName h₀ ht d.name).exists_define hfind
  have hhead := (Logs.run_tracksName h₀ hrun d.name).head
  rw [hnone, Option.map_none, Option.map_eq_none_iff] at hhead
  obtain ⟨e', he'⟩ | hreset := Logs.run_definedOrReset h₀ ht (.inl ⟨e, he⟩) hrest
  · rw [hhead] at he'
    cases he'
  · apply hreset

/-- Whatever documents are loaded, the listener of `logs` does its work for each of them, as
if the values that they assign to `logs` had been given to `set_value` in their order; and
the loggers of the last value have its level and the last accepted pattern, and its appenders
if the listener did not miss a change of them, and the others that were defined are reset. -/
theorem loads_live (L : LogsVariable R yaml) {c : Config R LoggerManager Unit}
    (h : Holds L c Logs.start) (roots : List Node) :
  let c' := roots.foldl (fun c root => loadFromYaml yaml.emit root c) c
  let vs := roots.flatMap (logsOf L)
  (∃ s, Logs.start.run vs = some s ∧ L.defines (c'.vars "logs").mVal = s.defines ∧
      c'.world = s.manager) ∧
    (∀ i ∈ Logs.last vs, ∃ l, c'.world.live i.name = some l ∧ l.level = i.level ∧
      l.formatter = LogFormatter.new (Logs.lastPattern i.name vs) ∧
      (Logs.Steady i.name vs →
        i.appenders.mapM (LogAppenderDefine.live l.formatter) = some l.appenders)) ∧
    ∀ v ∈ vs, ∀ d ∈ v, (Logs.last vs).find? d.name = none →
      ∃ l, c'.world.live d.name = some l ∧ l.level = .unknow ∧ l.appenders = []
  := by
  intro c' vs
  obtain ⟨s, hrun, hholds⟩ := h.loads roots
  have hworld : c'.world = s.manager := hholds.world
  rw [hworld]
  refine ⟨⟨s, hrun, hholds.stored, rfl⟩, fun i hi => ?_, fun v hv d hd hnone => ?_⟩
  · have htracks := Logs.run_tracksName Logs.start_initial hrun i.name
    apply htracks.live (OrderedSet.find?_key hi)
  · apply run_removed Logs.start_initial hrun hv hd hnone

/-- The variable `logs` only. -/
def onlyLogs (yaml : YamlCpp Node) : Registry where
  T _ := LogDefines
  registered name := name = "logs"
  fromStr _ := LogDefines.ofText yaml
  eq _ := LogDefines.eq

/-- `g_log_defines`. -/
def gLogDefines (yaml : YamlCpp Node) : LogsVariable (onlyLogs yaml) yaml where
  registered := rfl
  defines v := v
  fromStr text := by simp [onlyLogs]
  eq _ _ := rfl

/-- Behind the construction of `LogIniter`. -/
def initial (yaml : YamlCpp Node) : Config (onlyLogs yaml) LoggerManager Unit where
  vars name :=
    { mVal := OrderedSet.empty LogDefine.name
      mCbs := if name = "logs" then [(1, Logs.listener)] else [] }
  world := LoggerManager.new
  calls := []

/-- Before the first document. -/
theorem initial_holds (yaml : YamlCpp Node) :
  Holds (gLogDefines yaml) (initial yaml) Logs.start
  := by
  constructor
  case stored => rfl
  case world => rfl
  case listener => exact ⟨1, rfl⟩
  case others =>
    intro name hname cb hcb
    simp [initial, hname] at hcb

/-- A logger with a formatter. -/
def logged : LogDefines := Logs.ofDefine Logs.loggerB

/-- Its YAML text. -/
def loggedText : String := "- name: b\n  level: WARN\n  formatter: \"%m%n\""

/-- The document `logs: [{name: b, level: WARN, formatter: "%m%n"}]`. -/
def loggedDocument : Node := .map [(.scalar "logs", logged.toNode)]

theorem loads_live_logged :
  let yaml := YamlCpp.ofDocument loggedText logged.toNode
  let c := loadFromYaml yaml.emit loggedDocument (initial yaml)
  ∃ l, c.world.live "b" = some l ∧ l.level = .warn ∧ l.formatter = LogFormatter.new "%m%n"
  := by
  intro yaml c
  have hread : LogDefines.ofText yaml loggedText = some logged := by
    have hyaml : yaml.Reads (logged.toText yaml) logged.toNode := ⟨logged.toNode, rfl, rfl⟩
    obtain ⟨v, hv, hlist⟩ := LogDefines.ofText_toText hyaml (by
      intro i hi
      obtain rfl := List.mem_singleton.mp hi
      nofun)
    obtain rfl : v = logged := OrderedSet.ext hlist
    apply hv
  have hassigned : logsOf (gLogDefines yaml) loggedDocument = [logged] := by
    have hpreorder : loggedDocument.preorder [] =
        [([], loggedDocument), (["logs"], logged.toNode)] := rfl
    have hlogs : (onlyLogs yaml).fromStr "logs" (text yaml.emit logged.toNode) =
        some logged := hread
    have hassignments : assignments (onlyLogs yaml) yaml.emit "logs" loggedDocument =
        ((onlyLogs yaml).fromStr "logs" (text yaml.emit logged.toNode)).toList := by
      rw [assignments, hpreorder]
      rfl
    rw [logsOf, hassignments, hlogs]
    rfl
  obtain ⟨-, hlive, -⟩ := loads_live (gLogDefines yaml) (initial_holds yaml) [loggedDocument]
  simp only [List.flatMap_singleton, hassigned] at hlive
  obtain ⟨l, hl, hlevel, hformatter, -⟩ := hlive Logs.loggerB List.mem_cons_self
  refine ⟨l, hl, hlevel, ?_⟩
  rw [hformatter, Logs.lastPattern_of_usable (i := Logs.loggerB) rfl (by decide)]
  rfl

end Config

end WbServer
