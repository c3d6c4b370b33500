import WbServer.Log.History
import WbServer.Log.Inherit

/-!
# Programs that use and configure the loggers

A program performs operations on loggers and appenders and stores configurations, in any
order. The listener of `LogIniter` consists of operations itself (`Logs.setValue_leads`), so
that whatever the operations keep holds in every program.

The identity of a logger, its name and its root, never changes. From this follows where a
record goes: to the appenders of the logger, or to those of `root` if it has none
(`Program.reached_eq`).
-/

namespace WbServer

namespace LoggerManager

/-! ### Identities -/

/-- The name and the root of the logger that is stored under a name. -/
def identity (s : LoggerManager) (name : String) : Option (String × Option String) :=
  (s.mLoggers name).map fun l => (l.mName, l.mRoot)

/-- A changed logger has its name and root. -/
theorem identity_set (s : LoggerManager) (name : String) (l : Logger) :
  (s.set name l).identity = Function.update s.identity name (some (l.mName, l.mRoot))
  := by
  funext name'
  by_cases hname : name' = name
  · simp [identity, hname]
  · simp [identity, hname]

/-- A logger is replaced by one with the same identity. -/
theorem identity_set_of_eq {s : LoggerManager} {name : String} {l l' : Logger}
    (hl : s.mLoggers name = some l) (hname : l'.mName = l.mName) (hroot : l'.mRoot = l.mRoot) :
  (s.set name l').identity = s.identity
  := by
  rw [identity_set, hname, hroot, Function.update_eq_self_iff]
  simp [identity, hl]

/-- A change that keeps the name and the root. -/
theorem identity_modify (s : LoggerManager) (name : String) {f : Logger → Logger}
    (hname : ∀ l, (f l).mName = l.mName) (hroot : ∀ l, (f l).mRoot = l.mRoot) :
  (s.modify name f).identity = s.identity
  := by
  unfold modify
  split
  case h_1 => rfl
  case h_2 l hl => apply identity_set_of_eq hl (hname l) (hroot l)

theorem identity_addAppender (s : LoggerManager) (name : String) (ap : AppenderId) :
  (s.addAppender name ap).identity = s.identity
  := by
  unfold addAppender
  split
  case h_1 => rfl
  case h_2 l hl => exact identity_set_of_eq (s := { s with heap := _ }) hl rfl rfl

theorem identity_setFormatter (s : LoggerManager) (name : String) (val : LogFormatter) :
  (s.setFormatter name val).identity = s.identity
  := by
  unfold setFormatter
  split
  case h_1 => rfl
  case h_2 l hl => exact identity_set_of_eq (s := { s with heap := _ }) hl rfl rfl

/-- The only operation that changes an identity is `get_logger` for a new name. -/
theorem identity_apply (op : Operation) (s : LoggerManager) :
  (op.apply s).identity = s.identity ∨
    ∃ name, op = .getLogger name ∧ s.identity name = none ∧
      (op.apply s).identity = Function.update s.identity name (some (name, some "root"))
  := by
  cases op with
  | getLogger name =>
      simp only [Operation.apply, getLogger]
      split
      case h_1 => left; rfl
      case h_2 hnone =>
        right
        exact ⟨name, rfl, by simp [identity, hnone], identity_set s name _⟩
  | newAppender kind => left; rfl
  | addAppender name ap => left; apply identity_addAppender
  | delAppender name ap => left; exact identity_modify s name (fun _ => rfl) fun _ => rfl
  | clearAppender name => left; exact identity_modify s name (fun _ => rfl) fun _ => rfl
  | setLevel name val => left; exact identity_modify s name (fun _ => rfl) fun _ => rfl
  | setFormatter name val => left; apply identity_setFormatter
  | setPattern name val =>
      left
      simp only [Operation.apply, setPattern]
      split
      · rfl
      · apply identity_setFormatter
  | setAppenderFormatter ap val => left; rfl
  | setAppenderLevel ap val => left; rfl

/-- The root is stored under `root`, and every other logger under its name, with the root as
its root. -/
structure Rooted (s : LoggerManager) : Prop where
  root : s.identity "root" = some ("root", none)
  others : ∀ name ≠ "root", s.identity name = none ∨ s.identity name = some (name, some "root")

/-- A logger is stored under its name. -/
theorem Rooted.eq {s : LoggerManager} (h : s.Rooted) {name : String} {l : Logger}
    (hl : s.mLoggers name = some l) :
  l.mName = name ∧ l.mRoot = if name = "root" then none else some "root"
  := by
  have hidentity : s.identity name = some (l.mName, l.mRoot) := by simp [identity, hl]
  by_cases hname : name = "root"
  · rw [hname, h.root, Option.some_inj, Prod.mk.injEq] at hidentity
    simp [hname, ← hidentity.1, ← hidentity.2]
  · obtain hnone | hother := h.others name hname
    · rw [hidentity] at hnone
      cases hnone
    · rw [hidentity, Option.some_inj, Prod.mk.injEq] at hother
      simpa [hname] using hother

/-- At first there is only `root`, under its own name. -/
theorem new_rooted :
  new.Rooted
  := by
  constructor
  case root => rfl
  case others =>
    intro name hname
    left
    simp [identity, new, addAppender, newAppender, set, hname]

/-- A step keeps every logger under its own name, with `root` behind it. -/
theorem Rooted.step {op : Operation} {s s' : LoggerManager} (h : s.Rooted)
    (hstep : system.step op s = some s') :
  s'.Rooted
  := by
  simp only [system] at hstep
  split at hstep
  case isFalse => cases hstep
  case isTrue =>
    obtain rfl := Option.some.inj hstep
    obtain heq | ⟨name, -, hnone, heq⟩ := identity_apply op s
    · exact ⟨by rw [heq, h.root], by rw [heq]; exact h.others⟩
    · have hname : name ≠ "root" := by
        rintro rfl
        rw [h.root] at hnone
        cases hnone
      constructor
      case root => rw [heq, Function.update_of_ne hname.symm, h.root]
      case others =>
        intro name' hname'
        rw [heq]
        by_cases hsame : name' = name
        · simp [hsame]
        · rw [Function.update_of_ne hsame]
          apply h.others name' hname'

/-- In every reachable state. -/
theorem reachable_rooted {s : LoggerManager} (h : system.Reachable s) :
  s.Rooted
  := by
  apply h.invariant
  · rintro s rfl
    apply new_rooted
  · intro op s s' hs _ hstep
    apply hs.step hstep

/-! ### The listener as a sequence of operations -/

/-- An operation is a step. -/
theorem leads_apply (op : Operation) {s : LoggerManager} (h : op.Exists s) :
  system.Leads s (op.apply s)
  := .of_step (if_pos h)

theorem isSome_mLoggers {s : LoggerManager} {name : String} :
  (s.mLoggers name).isSome ↔ s.identity name ≠ none
  := by
  simp [identity, Option.isSome_iff_ne_none]

/-- A logger that has been obtained stays. -/
theorem Leads.identity_ne_none {s s' : LoggerManager} (h : system.Leads s s') {name : String}
    (hname : s.identity name ≠ none) :
  s'.identity name ≠ none
  := by
  obtain ⟨ops, hops⟩ := h
  induction ops generalizing s with
  | nil =>
      obtain rfl : s = s' := by simpa [Transition.System.exec] using hops
      apply hname
  | cons op ops ih =>
      obtain ⟨t, ht, hops⟩ := Option.bind_eq_some_iff.mp hops
      apply ih _ hops
      simp only [system] at ht
      split at ht
      case isFalse => cases ht
      case isTrue =>
        obtain rfl := Option.some.inj ht
        obtain heq | ⟨name', -, -, heq⟩ := identity_apply op s
        · rwa [heq]
        · rw [heq]
          by_cases hsame : name = name'
          · simp [hsame]
          · rwa [Function.update_of_ne hsame]

/-- The logger that `get_logger` returns has been obtained. -/
theorem identity_getLogger (s : LoggerManager) (name : String) :
  (s.getLogger name).identity name ≠ none
  := by
  unfold getLogger
  split
  case h_1 l hl => simp [identity, hl]
  case h_2 => simp [identity]

/-- An appender is constructed and then given its level and its formatter. -/
theorem leads_newAppender (s : LoggerManager) {a : LogAppender}
    (ha : a.mHasFormatter = a.mFormatter.isSome) :
  system.Leads s (s.newAppender a)
  := by
  obtain ⟨kind, level, formatter, has⟩ := a
  obtain rfl : has = formatter.isSome := ha
  have hnew : system.Leads s (s.newAppender { kind := kind }) :=
    leads_apply (.newAppender kind) trivial
  have hnext : s.next < (s.newAppender { kind := kind }).next := Nat.lt_succ_self _
  have hlevel := hnew.trans (leads_apply (.setAppenderLevel s.next level) hnext)
  have hall := hlevel.trans (leads_apply (.setAppenderFormatter s.next formatter) hnext)
  have heq : s.newAppender ⟨kind, level, formatter, formatter.isSome⟩ =
      ((s.newAppender { kind := kind }).setAppenderLevel s.next level).setAppenderFormatter
        s.next formatter := by
    simp [newAppender, setAppenderLevel, setAppenderFormatter, modifyAppender,
      LogAppender.setFormatter]
  rw [heq]
  apply hall

/-- A configured appender has a formatter of its own or none. -/
theorem hasFormatter_newAppender {d : LogAppenderDefine} {a : LogAppender}
    (h : d.newAppender = some a) :
  a.mHasFormatter = a.mFormatter.isSome
  := by
  obtain ⟨kind, -, rfl⟩ := Option.map_eq_some_iff.mp h
  dsimp only
  split
  · split
    · rfl
    · rfl
  · rfl

/-- The loop body over the appenders of a definition. -/
theorem leads_attach {name : String} {s s' : LoggerManager} {d : LogAppenderDefine}
    (hname : s.identity name ≠ none) (h : attach name s d = some s') :
  system.Leads s s' ∧ s'.identity name ≠ none
  := by
  obtain ⟨a, ha, rfl⟩ := Option.map_eq_some_iff.mp h
  have hnew := leads_newAppender s (hasFormatter_newAppender ha)
  have hname' : (s.newAppender a).identity name ≠ none := Leads.identity_ne_none hnew hname
  have hexists : (Operation.addAppender name s.next).Exists (s.newAppender a) :=
    ⟨isSome_mLoggers.mpr hname', Nat.lt_succ_self _⟩
  have hall := hnew.trans (leads_apply _ hexists)
  exact ⟨hall, Leads.identity_ne_none hall hname⟩

/-- The definition of a logger is a sequence of operations. -/
theorem leads_configure {s s' : LoggerManager} {i : LogDefine} (h : s.configure i = some s') :
  system.Leads s s'
  := by
  have hget : system.Leads s (s.getLogger i.name) :=
    leads_apply (.getLogger i.name) trivial
  -- the operations on a logger that has been obtained
  have hnext : ∀ t op, system.Leads (s.getLogger i.name) t →
      (∀ t, t.identity i.name ≠ none → Operation.Exists t op) →
      system.Leads (s.getLogger i.name) (op.apply t) := by
    intro t op ht hop
    apply ht.trans (leads_apply op (hop t _))
    apply Leads.identity_ne_none ht (identity_getLogger s i.name)
  have hlevel := hnext _ (.setLevel i.name i.level) (.refl _) fun _ => isSome_mLoggers.mpr
  have hpattern : system.Leads (s.getLogger i.name)
      (if i.formatter ≠ "" then
        ((s.getLogger i.name).setLevel i.name i.level).setPattern i.name i.formatter
      else (s.getLogger i.name).setLevel i.name i.level) := by
    split
    · exact hnext _ (.setPattern i.name i.formatter) hlevel fun _ => isSome_mLoggers.mpr
    · exact hlevel
  have hclear := hnext _ (.clearAppender i.name) hpattern fun _ => isSome_mLoggers.mpr
  have hname := Leads.identity_ne_none hclear (identity_getLogger s i.name)
  have hloop := Transition.System.Leads.foldlM (S := system) (fun t => t.identity i.name ≠ none)
    (fun t d t' ht hd => leads_attach ht hd) hname h
  exact hget.trans (hclear.trans hloop.1)

/-- So is an iteration of the loop over the new value. -/
theorem leads_update {oldValue : LogDefines} {s s' : LoggerManager} {i : LogDefine}
    (h : update oldValue s i = some s') :
  system.Leads s s'
  := by
  unfold update at h
  split at h
  case h_1 => apply leads_configure h
  case h_2 =>
    split at h
    · apply leads_configure h
    · obtain rfl := Option.some.inj h
      apply Transition.System.Leads.refl

/-- So is an iteration of the loop over the old value. -/
theorem leads_remove (newValue : LogDefines) (s : LoggerManager) (i : LogDefine) :
  system.Leads s (remove newValue s i)
  := by
  unfold remove
  split
  case h_1 =>
    have hget : system.Leads s (s.getLogger i.name) :=
      leads_apply (.getLogger i.name) trivial
    have hname := identity_getLogger s i.name
    have hlevel := leads_apply (.setLevel i.name .unknow) (isSome_mLoggers.mpr hname)
    have hname' := Leads.identity_ne_none hlevel hname
    have hclear := leads_apply (.clearAppender i.name) (isSome_mLoggers.mpr hname')
    exact hget.trans (hlevel.trans hclear)
  case h_2 => apply Transition.System.Leads.refl

/-- The listener acts by operations. -/
theorem leads_onChange {oldValue newValue : LogDefines} {s s' : LoggerManager}
    (h : onChange oldValue newValue s = some s') :
  system.Leads s s'
  := by
  obtain ⟨t, ht, rfl⟩ := Option.map_eq_some_iff.mp h
  have hupdate := Transition.System.Leads.foldlM (S := system) (fun _ => True)
    (fun t i t' _ hi => ⟨leads_update hi, trivial⟩) trivial ht
  have hloop : oldValue.toList.foldlM (fun s i => some (remove newValue s i)) t =
      some (oldValue.toList.foldl (remove newValue) t) := List.foldlM_pure
  have hremove := Transition.System.Leads.foldlM (S := system) (fun _ => True)
    (fun t i t' _ hi => ⟨Option.some.inj hi ▸ leads_remove newValue t i, trivial⟩) trivial hloop
  exact hupdate.1.trans hremove.1

end LoggerManager

/-- The listener of `logs` is a sequence of operations. -/
theorem Logs.setValue_leads {s s' : Logs} {v : LogDefines} (h : s.setValue v = some s') :
  LoggerManager.system.Leads s.manager s'.manager
  := by
  obtain ⟨-, rfl⟩ | ⟨-, hchange⟩ := setValue_cases h
  · apply Transition.System.Leads.refl
  · apply LoggerManager.leads_onChange hchange

/-! ### Programs -/

namespace Program

/-- A step of a program: an operation, or `set_value` of a configuration. -/
inductive Step where
  | operation (op : Operation)
  | setValue (v : LogDefines)

/-- The programs from the start on. -/
def system : Transition.System Logs Step where
  init s := s = Logs.start
  step
    | .operation op, s =>
        if op.Exists s.manager then some { s with manager := op.apply s.manager } else none
    | .setValue v, s => s.setValue v

/-- A program leads to the loggers and appenders that some operations lead to. -/
theorem reachable_manager {s : Logs} (h : system.Reachable s) :
  LoggerManager.system.Reachable s.manager
  := by
  apply Transition.System.Reachable.map (T := system) (f := Logs.manager) _ _ h
  · rintro s rfl
    apply Transition.System.Reaches.init
    rfl
  · intro l s s' hstep
    cases l with
    | operation op =>
        simp only [system] at hstep
        split at hstep
        case isFalse => cases hstep
        case isTrue hop =>
          obtain rfl := Option.some.inj hstep
          apply LoggerManager.leads_apply op hop
    | setValue v => apply Logs.setValue_leads hstep

/-! ### Where a record goes -/

end Program

namespace LoggerManager

/-- The appenders of a logger, if the level of a record passes the test of the logger. -/
def passed (s : LoggerManager) (level : LogLevel) (name : String) : List AppenderId :=
  match s.mLoggers name with
  | none => []
  | some l => if l.mLevel.toNat ≤ level.toNat then l.mAppenders else []

/-- A record that stays at its logger. -/
theorem reached_succ_of_stays {s : LoggerManager} {name : String} {l : Logger}
    (hl : s.mLoggers name = some l) (h : l.mAppenders ≠ [] ∨ l.mRoot = none) (level : LogLevel)
    (depth : ℕ) :
  s.reached level (depth + 1) name = s.passed level name
  := by
  by_cases hlevel : l.mLevel.toNat ≤ level.toNat
  · by_cases hnil : l.mAppenders = []
    · have hroot : l.mRoot = none := h.resolve_left fun hne => hne hnil
      simp [reached, passed, hl, hnil, hroot]
    · simp [reached, passed, hl, hlevel, hnil]
  · simp [reached, passed, hl, hlevel]

end LoggerManager

namespace Program

/-- Where the recursion of `Logger::log` leads. -/
theorem reached_dispatch {s : Logs} (h : system.Reachable s) {name : String} {l : Logger}
    (hl : s.manager.mLoggers name = some l) (level : LogLevel) (depth : ℕ) :
  s.manager.reached level (depth + 2) name =
    if l.mLevel.toNat ≤ level.toNat ∧ l.mAppenders = [] ∧ name ≠ "root" then
      s.manager.passed level "root"
    else s.manager.passed level name
  := by
  have hrooted := LoggerManager.reachable_rooted (reachable_manager h)
  split
  case isTrue hpass =>
    obtain ⟨hlevel, hnil, hname⟩ := hpass
    obtain ⟨r, hr, hidentity⟩ := Option.map_eq_some_iff.mp hrooted.root
    have hroot : r.mRoot = none := congrArg Prod.snd hidentity
    have hup : s.manager.reached level (depth + 2) name =
        s.manager.reached level (depth + 1) "root" := by
      have hlink := (hrooted.eq hl).2
      rw [if_neg hname] at hlink
      simp [LoggerManager.reached, hl, hlevel, hnil, hlink]
    rw [hup]
    apply LoggerManager.reached_succ_of_stays hr (.inr hroot)
  case isFalse hpass =>
    by_cases hlevel : l.mLevel.toNat ≤ level.toNat
    · apply LoggerManager.reached_succ_of_stays hl
      rw [(hrooted.eq hl).2]
      by_contra! hboth
      apply hpass
      refine ⟨hlevel, hboth.1, fun hname => hboth.2 (if_pos hname)⟩
    · simp [LoggerManager.reached, LoggerManager.passed, hl, hlevel]

/-- A record goes to the appenders of its logger, or, if the logger lets it pass but has no
appenders, to those of `root`. The recursion ends there, and all appenders that it reaches
have been constructed. -/
theorem reached_eq {s : Logs} (h : system.Reachable s) {name : String} {l : Logger}
    (hl : s.manager.mLoggers name = some l) (level : LogLevel) (depth : ℕ) :
  s.manager.reached level (depth + 2) name =
      (if l.mLevel.toNat ≤ level.toNat ∧ l.mAppenders = [] ∧ name ≠ "root" then
        s.manager.passed level "root"
      else s.manager.passed level name) ∧
    ∀ ap ∈ s.manager.reached level (depth + 2) name, ap < s.manager.next
  := by
  use reached_dispatch h hl level depth
  have hconstructed : s.manager.Constructed := by
    apply (reachable_manager h).invariant
    · rintro t rfl name l ap ⟨hl, hap⟩
      apply LoggerManager.new_wf.constructed name l hl ap hap
    · intro op t t' ht _ hstep
      apply ht.step hstep
  intro ap hap
  obtain ⟨name', l', hattached⟩ := LoggerManager.attached_of_mem_reached hap
  apply hconstructed name' l' ap hattached

/-- A logger `a` is obtained, which has no appenders. -/
def obtained : List Step := [.operation (.getLogger "a")]

theorem reached_eq_obtained :
  ∃ s l, system.exec obtained Logs.start = some s ∧ s.manager.mLoggers "a" = some l ∧
    s.manager.reached .info 2 "a" = [0]
  := by
  have hstart : system.Reachable Logs.start := .init rfl
  obtain ⟨s, hs⟩ : ∃ s, system.exec obtained Logs.start = some s :=
    Option.isSome_iff_exists.mp rfl
  have hview : (system.exec obtained Logs.start).map (fun s =>
      ((s.manager.mLoggers "a").map fun l => (l.mLevel, l.mAppenders),
        s.manager.passed .info "root")) = some (some (.debug, []), [0]) := rfl
  rw [hs, Option.map_some, Option.some_inj, Prod.mk.injEq] at hview
  obtain ⟨hl, hroot⟩ := hview
  obtain ⟨l, hl, heq⟩ := Option.map_eq_some_iff.mp hl
  obtain ⟨hlevel, hnil⟩ := Prod.mk.inj heq
  use s, l, hs, hl
  rw [(reached_eq (hstart.exec obtained hs) hl .info 0).1, if_pos _, hroot]
  rw [hlevel]
  exact ⟨by decide, hnil, by decide⟩

end Program

end WbServer
