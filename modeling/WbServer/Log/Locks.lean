import Mathlib.Data.String.Basic
import WbServer.Base.Locks
import WbServer.Base.OrderedSet
import WbServer.Log.Operation

/-!
# The locks of the logging interface

The operations on loggers and appenders with the spinlocks that they take: that of the
manager, of a logger, and of an appender. They are taken in this order, and that of the
logger `root` behind those of the other loggers, which log to it while they hold their own.
`Logging.no_deadlock` concludes that threads never wait for each other in a cycle.
-/

namespace WbServer

open Locks (Instr)

/-- The spinlocks. -/
inductive LockId where
  | manager
  | logger (name : String)
  | appender (ap : AppenderId)
  deriving DecidableEq

/-- What the threads share: the loggers and appenders, the keys of `m_loggers`, and the
`m_last_time` of the file appenders. -/
structure Logging where
  manager : LoggerManager
  names : OrderedSet fun name : String => name
  mLastTime : AppenderId → ℕ

/-- The operations, and the parts of which they consist: the accesses to what is shared, and
the iterations `i` of the loops over the loggers and the appenders. -/
inductive Logging.Action where
  | run (op : Operation)
  | managerToYamlString
  | log (name : String) (level : LogLevel)
  | getFormatter (name : String)
  | toYamlString (name : String)
  | getAppenderFormatter (ap : AppenderId)
  | apply (op : Operation)
  | eachLogger (i : ℕ)
  | dispatch (name : String) (level : LogLevel)
  | eachLog (name : String) (level : LogLevel) (i : ℕ)
  | testFormatter (name : String) (ap : AppenderId)
  | copyFormatter (name : String) (ap : AppenderId)
  | pushBack (name : String) (ap : AppenderId)
  | storeFormatter (name : String) (val : LogFormatter)
  | eachFollow (name : String) (i : ℕ)
  | follow (name : String) (ap : AppenderId)
  | eachToYamlString (name : String) (i : ℕ)
  | appenderLog (ap : AppenderId) (level : LogLevel)
  | reopen (ap : AppenderId)
  | setLastTime (ap : AppenderId) (now : ℕ)
  | appenderToYamlString (ap : AppenderId)

namespace Logging

/-! ### The code -/

/-- A section `MutexType::Lock lock(m_mutex)`. -/
def guarded (m : LockId) (body : List (Instr LockId Action)) : List (Instr LockId Action) :=
  .lock m :: (body ++ [.unlock m])

/-- The appender at which an iteration over the appenders of a logger is. -/
def appender? (s : Logging) (name : String) (i : ℕ) : Option AppenderId :=
  (s.manager.mLoggers name).bind fun l => l.mAppenders[i]?

/-- The operations that change loggers and appenders. -/
def run (op : Operation) (s : Logging) : Logging × List (Instr LockId Action) :=
  match op with
  | .getLogger _ => (s, guarded .manager [.act (.apply op)])
  | .newAppender kind =>
      -- the constructor of `FileLogAppender` opens the file
      ({ s with manager := s.manager.newAppender { kind := kind } },
        match kind with
        | .file _ => [.act (.reopen s.manager.next)]
        | .stdout => [])
  | .addAppender name ap =>
      -- `get_formatter` takes the lock of the appender, in front of the test of its result
      (s, guarded (.logger name)
        [.lock (.appender ap), .act (.testFormatter name ap), .act (.pushBack name ap)])
  | .delAppender name _ => (s, guarded (.logger name) [.act (.apply op)])
  | .clearAppender name => (s, guarded (.logger name) [.act (.apply op)])
  | .setLevel _ _ => (s, [.act (.apply op)])
  | .setFormatter name val =>
      (s, guarded (.logger name) [.act (.storeFormatter name val), .act (.eachFollow name 0)])
  | .setPattern name val =>
      let new := LogFormatter.new val
      (s, if new.mError then [] else [.act (.run (.setFormatter name new))])
  | .setAppenderFormatter ap _ => (s, guarded (.appender ap) [.act (.apply op)])
  | .setAppenderLevel _ _ => (s, [.act (.apply op)])

/-- What an access does to the loggers and appenders at once. A new logger is also found by
an iteration over `m_loggers`. -/
def applyOp (op : Operation) (s : Logging) : Logging :=
  { s with
    manager := op.apply s.manager
    names := match op with
      | .getLogger name => s.names.insert name
      | _ => s.names }

/-- `StdoutLogAppender::log` and `FileLogAppender::log`, with the time `now`. -/
def appenderLog (ap : AppenderId) (level : LogLevel) (now : ℕ) (s : Logging) :
    List (Instr LockId Action) :=
  let a := s.manager.heap ap
  if a.mLevel.toNat ≤ level.toNat then
    match a.kind with
    | .stdout => guarded (.appender ap) []
    | .file _ =>
        (if now ≠ s.mLastTime ap then [.act (.reopen ap), .act (.setLastTime ap now)] else []) ++
          guarded (.appender ap) []
  else []

/-- The effect of an action and the code that it leads to, at the time `now`. -/
def expand : Locks.Actions LockId Logging Action ℕ
  | .run op, _, s => run op s
  | .managerToYamlString, _, s => (s, guarded .manager [.act (.eachLogger 0)])
  | .log name level, _, s =>
      (s, match s.manager.mLoggers name with
        | none => []
        | some l =>
            if l.mLevel.toNat ≤ level.toNat then
              guarded (.logger name) [.act (.dispatch name level)]
            else [])
  | .getFormatter name, _, s => (s, guarded (.logger name) [])
  | .toYamlString name, _, s => (s, guarded (.logger name) [.act (.eachToYamlString name 0)])
  | .getAppenderFormatter ap, _, s => (s, guarded (.appender ap) [])
  | .apply op, _, s => (applyOp op s, [])
  | .eachLogger i, _, s =>
      (s, match s.names.toList[i]? with
        | none => []
        | some name => [.act (.toYamlString name), .act (.eachLogger (i + 1))])
  | .dispatch name level, _, s =>
      (s, match s.manager.mLoggers name with
        | none => []
        | some l =>
            if l.mAppenders = [] then
              match l.mRoot with
              | none => []
              | some root => [.act (.log root level)]
            else [.act (.eachLog name level 0)])
  | .eachLog name level i, _, s =>
      (s, match s.appender? name i with
        | none => []
        | some ap => [.act (.appenderLog ap level), .act (.eachLog name level (i + 1))])
  | .testFormatter name ap, _, s =>
      (s, .unlock (.appender ap) ::
        if (s.manager.heap ap).mFormatter = none then
          guarded (.appender ap) [.act (.copyFormatter name ap)]
        else [])
  | .copyFormatter name ap, _, s =>
      (match s.manager.mLoggers name with
        | none => s
        | some l =>
            { s with manager := s.manager.modifyAppender ap fun a =>
                { a with mFormatter := some l.mFormatter } }, [])
  | .pushBack name ap, _, s =>
      ({ s with manager := s.manager.modify name fun l =>
          { l with mAppenders := l.mAppenders ++ [ap] } }, [])
  | .storeFormatter name val, _, s =>
      ({ s with manager := s.manager.modify name fun l => { l with mFormatter := val } }, [])
  | .eachFollow name i, _, s =>
      (s, match s.appender? name i with
        | none => []
        | some ap =>
            guarded (.appender ap) [.act (.follow name ap)] ++ [.act (.eachFollow name (i + 1))])
  | .follow name ap, _, s =>
      (match s.manager.mLoggers name with
        | none => s
        | some l =>
            { s with manager := s.manager.modifyAppender ap fun a => a.follow l.mFormatter }, [])
  | .eachToYamlString name i, _, s =>
      (s, match s.appender? name i with
        | none => []
        | some ap =>
            [.act (.appenderToYamlString ap), .act (.eachToYamlString name (i + 1))])
  | .appenderLog ap level, now, s => (s, appenderLog ap level now s)
  | .reopen ap, _, s => (s, guarded (.appender ap) [])
  | .setLastTime ap now, _, s =>
      ({ s with mLastTime := Function.update s.mLastTime ap now }, [])
  | .appenderToYamlString ap, _, s => (s, guarded (.appender ap) [])

/-- The operations that a program may call: on loggers that have been obtained from the
manager, and on appenders that have been constructed. -/
def callable : Action → Logging → Bool
  | .run op, s => op.Exists s.manager
  | .managerToYamlString, _ => true
  | .log name _, s | .getFormatter name, s | .toYamlString name, s =>
      (s.manager.mLoggers name).isSome
  | .getAppenderFormatter ap, s => ap < s.manager.next
  | _, _ => false

/-- Before the first operation. -/
def new : Logging where
  manager := .new
  names := (OrderedSet.empty _).insert "root"
  mLastTime _ := 0

/-- The threads that use the logging interface. -/
def system : Transition.System (Locks.Threads LockId Logging Action) (Locks.Label Action ℕ) :=
  Locks.system (· = new) callable expand

/-! ### The order of the locks -/

/-- The place of a lock in the order. -/
def rank : LockId → ℕ
  | .manager => 0
  | .logger name => if name = "root" then 2 else 1
  | .appender _ => 3

/-- The place below which an action takes no lock. -/
def floor : Action → ℕ
  | .run _ | .managerToYamlString | .getFormatter _ | .getAppenderFormatter _ => 0
  | .toYamlString _ | .eachLogger _ => 1
  | .log name _ => rank (.logger name)
  | .dispatch name _ => rank (.logger name) + 1
  | .eachLog _ _ _ | .testFormatter _ _ | .eachFollow _ _ | .eachToYamlString _ _
  | .appenderLog _ _ | .reopen _ | .appenderToYamlString _ => 3
  | .apply _ | .copyFormatter _ _ | .pushBack _ _ | .storeFormatter _ _ | .follow _ _
  | .setLastTime _ _ => 4

/-- The locks that an action takes over from its caller. -/
def entry : Action → Set LockId
  | .testFormatter _ ap => {.appender ap}
  | _ => ∅

end Logging

/-! ### The links to the root -/

namespace LoggerManager

/-- The logger `root` exists, and only the other loggers have a root, which is `root`. -/
structure Links (s : LoggerManager) : Prop where
  root : s.mLoggers "root" ≠ none
  link : ∀ name l, s.mLoggers name = some l → ∀ root, l.mRoot = some root →
    name ≠ "root" ∧ root = "root"

/-- At first there is only `root`, which is linked to nothing. -/
theorem links_new :
  new.Links
  := by
  have hroot : ∃ l, new.mLoggers "root" = some l ∧ l.mRoot = none := ⟨_, rfl, rfl⟩
  obtain ⟨l, hl, hnone⟩ := hroot
  constructor
  case root => simp [hl]
  case link =>
    intro name l' hl' root hroot
    by_cases hname : name = "root"
    · rw [hname, hl] at hl'
      obtain rfl := Option.some.inj hl'
      rw [hnone] at hroot
      cases hroot
    · have hnone : new.mLoggers name = none := by
        simp [new, addAppender, newAppender, set, hname]
      rw [hnone] at hl'
      cases hl'

variable {s : LoggerManager}

/-- A logger is stored that has a root only if it is not `root`. -/
theorem Links.set (h : s.Links) {name : String} {l : Logger}
    (hl : ∀ root, l.mRoot = some root → name ≠ "root" ∧ root = "root") :
  (s.set name l).Links
  := by
  constructor
  case root =>
    by_cases hname : "root" = name
    · rw [hname, set_self]
      nofun
    · rw [set_of_ne s hname]
      apply h.root
  case link =>
    intro name' l' hl' root hroot
    by_cases hname : name' = name
    · rw [hname, set_self] at hl'
      obtain rfl := Option.some.inj hl'
      rw [hname]
      apply hl root hroot
    · rw [set_of_ne s hname] at hl'
      apply h.link name' l' hl' root hroot

/-- A change of a logger that keeps its root. -/
theorem Links.modify (h : s.Links) (name : String) {f : Logger → Logger}
    (hf : ∀ l, (f l).mRoot = l.mRoot) :
  (s.modify name f).Links
  := by
  unfold LoggerManager.modify
  split
  case h_1 => apply h
  case h_2 l hl =>
    apply h.set
    rw [hf]
    apply h.link name l hl

/-- The links do not depend on the appenders. -/
theorem Links.heap (h : s.Links) (heap : AppenderId → LogAppender) (next : AppenderId) :
  ({ s with heap := heap, next := next } : LoggerManager).Links
  := ⟨h.root, h.link⟩

theorem Links.setFormatter (h : s.Links) (name : String) (val : LogFormatter) :
  (s.setFormatter name val).Links
  := by
  unfold LoggerManager.setFormatter
  split
  case h_1 => apply h
  case h_2 l hl =>
    apply (h.heap _ s.next).set
    apply h.link name l hl

/-- No operation links a logger to anything but `root`. -/
theorem Links.apply (h : s.Links) (op : Operation) :
  (op.apply s).Links
  := by
  cases op with
  | getLogger name =>
      simp only [Operation.apply, getLogger]
      split
      case h_1 => apply h
      case h_2 hnone =>
        apply h.set
        intro root hroot
        constructor
        · rintro rfl
          apply h.root hnone
        · apply (Option.some.inj hroot).symm
  | newAppender kind => apply h.heap
  | addAppender name ap =>
      simp only [Operation.apply, addAppender]
      split
      case h_1 => apply h
      case h_2 l hl =>
        apply (h.heap _ s.next).set
        apply h.link name l hl
  | delAppender name ap => exact h.modify name fun _ => rfl
  | clearAppender name => exact h.modify name fun _ => rfl
  | setLevel name val => exact h.modify name fun _ => rfl
  | setFormatter name val => apply h.setFormatter
  | setPattern name val =>
      simp only [Operation.apply, setPattern]
      split
      · apply h
      · apply h.setFormatter
  | setAppenderFormatter ap val => apply h.heap
  | setAppenderLevel ap val => apply h.heap

end LoggerManager

namespace Logging

/-! ### Every action respects the order -/

@[simp]
theorem rank_manager :
  rank .manager = 0
  := rfl

@[simp]
theorem rank_appender (ap : AppenderId) :
  rank (.appender ap) = 3
  := rfl

@[simp]
theorem rank_logger_pos (name : String) :
  1 ≤ rank (.logger name)
  := by
  simp only [rank]
  split <;> decide

/-- The lock of a logger comes before those of the appenders. -/
@[simp]
theorem rank_logger_lt_three (name : String) :
  rank (.logger name) < 3
  := by
  simp only [rank]
  split <;> decide

@[simp]
theorem rank_logger_lt_four (name : String) :
  rank (.logger name) < 4
  := Nat.lt_succ_of_lt (rank_logger_lt_three name)

/-- The effects keep the links. -/
theorem links_expand (a : Action) (now : ℕ) {s : Logging} (h : s.manager.Links) :
  (expand a now s).1.manager.Links
  := by
  cases a with
  | run op =>
      cases op with
      | newAppender kind => apply h.heap
      | _ => apply h
  | apply op => apply h.apply op
  | copyFormatter name ap =>
      simp only [expand]
      split
      · apply h
      · apply h.heap
  | follow name ap =>
      simp only [expand]
      split
      · apply h
      · apply h.heap
  | pushBack name ap => exact h.modify name fun _ => rfl
  | storeFormatter name val => exact h.modify name fun _ => rfl
  | _ => apply h

/-- Every action takes locks in their order and releases them. -/
theorem ordered_expand (a : Action) (now : ℕ) (s : Logging) :
  Locks.Ordered rank floor entry (entry a) (expand a now s).2
  := by
  cases a with
  | run op =>
      cases op with
      | addAppender name ap =>
          simp [Locks.Ordered, expand, run, guarded, entry, floor]
      | newAppender kind => cases kind <;> simp [Locks.Ordered, expand, run, entry]
      | setPattern name val =>
          simp only [expand, run]
          split <;> simp [Locks.Ordered, entry]
      | _ => simp [Locks.Ordered, expand, run, guarded, entry, floor]
  | log name level =>
      simp only [expand]
      split
      · simp [Locks.Ordered, entry]
      · split <;> simp [Locks.Ordered, guarded, entry, floor]
  | dispatch name level =>
      simp only [expand]
      split
      · simp [Locks.Ordered, entry]
      · split
        · split <;> simp [Locks.Ordered, entry]
        · simp [Locks.Ordered, entry]
  | testFormatter name ap =>
      simp only [expand]
      split <;> simp [Locks.Ordered, guarded, entry, floor]
  | appenderLog ap level =>
      simp only [expand, appenderLog]
      split
      · split
        · simp [Locks.Ordered, guarded, entry]
        · split <;> simp [Locks.Ordered, guarded, entry]
      · simp [Locks.Ordered, entry]
  | eachLogger | eachLog | eachFollow | eachToYamlString =>
      simp only [expand]
      split <;> simp [Locks.Ordered, guarded, entry, floor]
  | _ => simp [Locks.Ordered, expand, guarded, entry, floor]

/-- Every action takes no lock below its floor. A logger that logs to its root is not `root`
itself. -/
theorem above_expand (a : Action) (now : ℕ) {s : Logging} (h : s.manager.Links) :
  Locks.Above rank floor (floor a) (expand a now s).2
  := by
  cases a with
  | run op => simp [Locks.Above, floor]
  | log name level =>
      simp only [expand]
      split
      · simp [Locks.Above]
      · split <;> simp [Locks.Above, guarded, floor]
  | dispatch name level =>
      simp only [expand]
      split
      case h_1 => simp [Locks.Above]
      case h_2 l hl =>
        split
        case isFalse => simp [Locks.Above, floor]
        case isTrue =>
          split
          case h_1 => simp [Locks.Above]
          case h_2 root hroot =>
            obtain ⟨hne, rfl⟩ := h.link name l hl root hroot
            simp [Locks.Above, floor, rank, hne]
  | testFormatter name ap =>
      simp only [expand]
      split <;> simp [Locks.Above, guarded, floor]
  | appenderLog ap level =>
      simp only [expand, appenderLog]
      split
      · split
        · simp [Locks.Above, guarded, floor]
        · split <;> simp [Locks.Above, guarded, floor]
      · simp [Locks.Above]
  | eachLogger | eachLog | eachFollow | eachToYamlString =>
      simp only [expand]
      split <;> simp [Locks.Above, guarded, floor]
  | _ => simp [Locks.Above, expand, guarded, floor]

/-- The code of every action respects the order of the locks. -/
theorem disciplined :
  Locks.Disciplined rank floor entry (fun s : Logging => s.manager.Links) expand
  where
  keeps a now _ h := links_expand a now h
  ordered a now s _ := ordered_expand a now s
  above a now _ h := above_expand a now h

/-- The operations that a program may call take over no locks. -/
theorem entry_of_callable (a : Action) (s : Logging) (h : callable a s = true) :
  entry a = ∅
  := by
  cases a <;> first | rfl | simp [callable] at h

/-- No thread waits for a lock that it holds, and no threads wait for each other in a
cycle. -/
theorem no_deadlock {s : Locks.Threads LockId Logging Action} (h : system.Reachable s) (t : ℕ) :
  ¬ Relation.TransGen (Locks.WaitsFor s) t t
  := by
  apply Locks.reachable_no_cycle disciplined entry_of_callable _ h
  rintro _ rfl
  apply LoggerManager.links_new

/-- Before the first operation of any thread. -/
def start : Locks.Threads LockId Logging Action where
  shared := new
  owner _ := none
  code _ := []

/-- A thread logs to `root` and holds its lock, and another one asks for its formatter. -/
def contention : List (Locks.Label Action ℕ) :=
  [.call 1 (.log "root" .info), .next 1 0, .next 1 0, .call 2 (.getFormatter "root"), .next 2 0]

theorem no_deadlock_contention :
  ∃ s, system.exec contention start = some s ∧ Locks.WaitsFor s 2 1 ∧
    ¬ Relation.TransGen (Locks.WaitsFor s) 2 2
  := by
  have hstart : system.Reachable start := by
    apply Transition.System.Reaches.init
    exact ⟨rfl, fun _ => rfl, fun _ => rfl⟩
  obtain ⟨s, hs⟩ : ∃ s, system.exec contention start = some s := Option.isSome_iff_exists.mp rfl
  use s, hs
  constructor
  · have hwaits :
        (system.exec contention start).map (fun s => (s.code 2, s.owner (.logger "root"))) =
          some ([.lock (.logger "root"), .unlock (.logger "root")], some 1) := rfl
    rw [hs, Option.map_some, Option.some.injEq, Prod.mk.injEq] at hwaits
    exact ⟨_, _, hwaits⟩
  · apply no_deadlock (hstart.exec contention hs)

end Logging

end WbServer
