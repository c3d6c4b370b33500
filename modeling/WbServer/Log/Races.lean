import WbServer.Log.Records

/-!
# Races of the logging interface

The data that threads share, the locks that guard them, and the accesses of the actions.
`Recording.race_unguarded` says that threads can race only for levels, for the `m_last_time` of
file appenders and for `std::cout`, which are read and written without a lock of their own, and
`Recording.value_stable` that what a lock guards does not change while another thread holds the
lock.
-/

namespace WbServer

open Locks (Instr)

/-- The data that threads share: `m_loggers`, the members of loggers and appenders, the streams
of file appenders, and `std::cout`. `m_formatter` and `m_has_formatter` of an appender are
one. -/
inductive Cell where
  | loggers
  | level (name : String)
  | appenders (name : String)
  | formatter (name : String)
  | appenderLevel (ap : AppenderId)
  | appenderFormatter (ap : AppenderId)
  | stream (ap : AppenderId)
  | lastTime (ap : AppenderId)
  | cout
  deriving DecidableEq

namespace Cell

/-- What a cell contains. -/
abbrev Value : Cell → Type
  | .loggers => List String
  | .level _ | .appenderLevel _ => LogLevel
  | .appenders _ => List AppenderId
  | .formatter _ => LogFormatter
  | .appenderFormatter _ => Option LogFormatter × Bool
  | .stream _ => OfStream × List (StreamOp × Bool)
  | .lastTime _ => ℕ
  | .cout => List String

/-- The lock that guards a cell. -/
def guard : Cell → Option LockId
  | .loggers => some .manager
  | .appenders name | .formatter name => some (.logger name)
  | .appenderFormatter ap | .stream ap => some (.appender ap)
  | .level _ | .appenderLevel _ | .lastTime _ | .cout => none

end Cell

namespace Recording

/-- A member of an appender that has been constructed. -/
def member {β : Type} (s : Recording) (ap : AppenderId) (x : β) : Option β :=
  if ap < s.logging.manager.next then some x else none

/-- The stream of a file appender, with what has been done to it. -/
def fileStream (s : Recording) (ap : AppenderId) : Option (OfStream × List (StreamOp × Bool)) :=
  match (s.logging.manager.heap ap).kind with
  | .stdout => none
  | .file _ => s.member ap (s.files ap, s.streams ap)

/-- The value of a cell, if the logger or the appender exists. -/
def value : (c : Cell) → Recording → Option c.Value
  | .loggers, s => some s.logging.names.toList
  | .level name, s => (s.logging.manager.mLoggers name).map fun l => l.mLevel
  | .appenders name, s => (s.logging.manager.mLoggers name).map fun l => l.mAppenders
  | .formatter name, s => (s.logging.manager.mLoggers name).map fun l => l.mFormatter
  | .appenderLevel ap, s => s.member ap (s.logging.manager.heap ap).mLevel
  | .appenderFormatter ap, s =>
      s.member ap
        ((s.logging.manager.heap ap).mFormatter, (s.logging.manager.heap ap).mHasFormatter)
  | .stream ap, s => s.fileStream ap
  | .lastTime ap, s => s.member ap (s.logging.mLastTime ap)
  | .cout, s => some s.cout

/-- What an action reads. An operation that has sections of its own is no access. -/
def reads : Action → Set Cell
  | .run (.log name _) _ => {.level name}
  | .run (.apply (.getLogger _)) _ | .run (.eachLogger _) _ => {.loggers}
  | .run (.apply (.delAppender name _)) _ => {.appenders name}
  | .run (.dispatch name _) _ | .run (.eachLog name _ _) _ | .run (.eachFollow name _) _
  | .run (.pushBack name _) _ => {.appenders name}
  | .run (.eachToYamlString name _) _ => {.appenders name, .level name, .formatter name}
  | .run (.testFormatter _ ap) _ => {.appenderFormatter ap}
  | .run (.copyFormatter name ap) _ | .run (.follow name ap) _ =>
      {.formatter name, .appenderFormatter ap}
  | .run (.appenderLog ap _) _ => {.appenderLevel ap, .lastTime ap}
  | .readFormatter name => {.formatter name}
  | .readAppender ap => {.appenderFormatter ap, .appenderLevel ap}
  | .format ap _ _ => {.appenderFormatter ap}
  | .openFile ap | .write ap _ | .testStream ap => {.stream ap}
  | .print _ => {.cout}
  | _ => ∅

/-- What an action writes. -/
def writes : Action → Set Cell
  | .run (.apply (.getLogger _)) _ => {.loggers}
  | .run (.apply (.delAppender name _)) _ | .run (.apply (.clearAppender name)) _ =>
      {.appenders name}
  | .run (.apply (.setLevel name _)) _ => {.level name}
  | .run (.apply (.setAppenderFormatter ap _)) _ => {.appenderFormatter ap}
  | .run (.apply (.setAppenderLevel ap _)) _ => {.appenderLevel ap}
  | .run (.apply (.addAppender _ _)) _ | .run (.apply (.setFormatter _ _)) _
  | .run (.apply (.setPattern _ _)) _ => Set.univ
  | .run (.copyFormatter _ ap) _ | .run (.follow _ ap) _ => {.appenderFormatter ap}
  | .run (.pushBack name _) _ => {.appenders name}
  | .run (.storeFormatter name _) _ => {.formatter name}
  | .run (.setLastTime ap _) _ => {.lastTime ap}
  | .openFile ap | .write ap _ => {.stream ap}
  | .print _ => {.cout}
  | _ => ∅

/-- Whoever accesses a cell needs the lock that guards it. -/
theorem needs_of_access {b : Action} {c : Cell} (hb : c ∈ reads b ∪ writes b) {m : LockId}
    (hc : c.guard = some m) :
  m ∈ needs b
  := by
  cases b with
  | run a event =>
      cases a with
      | apply op =>
          cases op <;> cases c <;>
            simp_all [reads, writes, Cell.guard, needs, needsRun]
      | _ => cases c <;> simp_all [reads, writes, Cell.guard, needs, needsRun]
  | _ => cases c <;> simp_all [reads, writes, Cell.guard, needs]

/-! ### An action changes what it writes -/

/-- The manager after a change. -/
def withManager (s : Recording) (m : LoggerManager) : Recording :=
  { s with logging := { s.logging with manager := m } }

/-- A change of a logger. -/
theorem value_modify (s : Recording) (name : String) {f : Logger → Logger} {c : Cell}
    (hlevel : c ≠ .level name ∨ ∀ l, (f l).mLevel = l.mLevel)
    (happenders : c ≠ .appenders name ∨ ∀ l, (f l).mAppenders = l.mAppenders)
    (hformatter : c ≠ .formatter name ∨ ∀ l, (f l).mFormatter = l.mFormatter) :
  value c (s.withManager (s.logging.manager.modify name f)) = value c s
  := by
  cases c with
  | level name' =>
      rcases hlevel with hne | hf
      · exact LoggerManager.map_modify_of_ne _ (by simpa using hne) _ _
      · exact LoggerManager.map_modify _ name' name hf
  | appenders name' =>
      rcases happenders with hne | hf
      · exact LoggerManager.map_modify_of_ne _ (by simpa using hne) _ _
      · exact LoggerManager.map_modify _ name' name hf
  | formatter name' =>
      rcases hformatter with hne | hf
      · exact LoggerManager.map_modify_of_ne _ (by simpa using hne) _ _
      · exact LoggerManager.map_modify _ name' name hf
  | _ => simp [value, fileStream, withManager, member]

/-- A change of an appender. -/
theorem value_modifyAppender (s : Recording) (ap : AppenderId) {f : LogAppender → LogAppender}
    {c : Cell} (hkind : ∀ a, (f a).kind = a.kind)
    (hlevel : c ≠ .appenderLevel ap ∨ ∀ a, (f a).mLevel = a.mLevel)
    (hformatter : c ≠ .appenderFormatter ap ∨ ∀ a,
      (f a).mFormatter = a.mFormatter ∧ (f a).mHasFormatter = a.mHasFormatter) :
  value c (s.withManager (s.logging.manager.modifyAppender ap f)) = value c s
  := by
  cases c with
  | appenderLevel ap' =>
      by_cases hap : ap' = ap
      · have hf := hlevel.resolve_left (by simp [hap])
        simp [value, withManager, member, LoggerManager.modifyAppender, hap, hf]
      · simp [value, withManager, member, LoggerManager.modifyAppender, hap]
  | appenderFormatter ap' =>
      by_cases hap : ap' = ap
      · have hf := hformatter.resolve_left (by simp [hap])
        simp [value, withManager, member, LoggerManager.modifyAppender, hap, hf]
      · simp [value, withManager, member, LoggerManager.modifyAppender, hap]
  | stream ap' =>
      have hkind' : ((s.logging.manager.modifyAppender ap f).heap ap').kind =
          (s.logging.manager.heap ap').kind := by
        by_cases hap : ap' = ap
        · simp [LoggerManager.modifyAppender, hap, hkind]
        · simp [LoggerManager.modifyAppender, hap]
      simp only [value, fileStream, withManager, hkind']
      rfl
  | _ => rfl

/-- A new appender has cells of its own. -/
theorem value_newAppender (s : Recording) (a : LogAppender) {c : Cell} {v : c.Value}
    (h : value c s = some v) :
  value c (s.withManager (s.logging.manager.newAppender a)) = some v
  := by
  have hmember : ∀ {β : Type} (ap : AppenderId) (x y v : β), s.member ap x = some v →
      (ap ≠ s.logging.manager.next → y = x) →
      (s.withManager (s.logging.manager.newAppender a)).member ap y = some v := by
    intro β ap x y v hx hy
    unfold member at hx
    split at hx
    case isFalse => cases hx
    case isTrue hap =>
      have hap' : ap < s.logging.manager.next + 1 := Nat.lt_succ_of_lt hap
      rw [hy (Nat.ne_of_lt hap)]
      simpa [member, withManager, LoggerManager.newAppender, hap'] using hx
  cases c with
  | appenderLevel ap =>
      apply hmember ap _ _ _ h
      intro hne
      exact congrArg (fun a : LogAppender => a.mLevel) (Function.update_of_ne hne ..)
  | appenderFormatter ap =>
      apply hmember ap _ _ _ h
      intro hne
      exact congrArg (fun a : LogAppender => (a.mFormatter, a.mHasFormatter))
        (Function.update_of_ne hne ..)
  | stream ap =>
      simp only [value, fileStream] at h ⊢
      by_cases hne : ap = s.logging.manager.next
      · split at h <;> simp [hne, member] at h
      · have hkind : ((s.logging.manager.newAppender a).heap ap).kind =
            (s.logging.manager.heap ap).kind :=
          congrArg LogAppender.kind (Function.update_of_ne hne ..)
        rw [withManager, hkind]
        split at h
        case h_1 => cases h
        case h_2 => exact hmember ap _ _ _ h fun _ => rfl
  | lastTime ap => exact hmember ap _ _ _ h fun _ => rfl
  | _ => exact h

/-- A new logger has cells of its own. -/
theorem value_getLogger (s : Recording) (name : String) {c : Cell} (hc : c ≠ .loggers)
    {v : c.Value} (h : value c s = some v) :
  value c { s with logging := Logging.applyOp (.getLogger name) s.logging } = some v
  := by
  have hmap : ∀ {β : Type} (name' : String) (g : Logger → β) (v : β),
      (s.logging.manager.mLoggers name').map g = some v →
      ((s.logging.manager.getLogger name).mLoggers name').map g = some v := by
    intro β name' g v hv
    unfold LoggerManager.getLogger
    split
    case h_1 => exact hv
    case h_2 hnone =>
      have hne : name' ≠ name := by
        rintro rfl
        simp [hnone] at hv
      rw [LoggerManager.set_of_ne _ hne]
      exact hv
  have hheap : (s.logging.manager.getLogger name).heap = s.logging.manager.heap := by
    unfold LoggerManager.getLogger
    split <;> rfl
  have hnext : (s.logging.manager.getLogger name).next = s.logging.manager.next := by
    unfold LoggerManager.getLogger
    split <;> rfl
  cases c with
  | loggers => exact absurd rfl hc
  | level name' => exact hmap name' _ v h
  | appenders name' => exact hmap name' _ v h
  | formatter name' => exact hmap name' _ v h
  | _ =>
      simp only [value, fileStream, member, Logging.applyOp, Operation.apply, hheap, hnext]
      exact h

/-- An action changes nothing that it does not write. -/
theorem value_expand (strftime : Strftime) {b : Action} {c : Cell} (hc : c ∉ writes b)
    (env : Environment) {s : Recording} {v : c.Value} (h : value c s = some v) :
  value c (expand strftime b env s).1 = some v
  := by
  cases b with
  | run a event =>
      cases a with
      | run op =>
          cases op with
          | newAppender kind => apply value_newAppender s _ h
          | _ => exact h
      | apply op =>
          cases op with
          | getLogger name => apply value_getLogger s name hc h
          | newAppender kind => apply value_newAppender s _ h
          | addAppender | setFormatter | setPattern => exact absurd trivial hc
          | delAppender name ap =>
              rw [← h]
              exact value_modify s name (.inr fun _ => rfl) (.inl hc) (.inr fun _ => rfl)
          | clearAppender name =>
              rw [← h]
              exact value_modify s name (.inr fun _ => rfl) (.inl hc) (.inr fun _ => rfl)
          | setLevel name val =>
              rw [← h]
              exact value_modify s name (.inl hc) (.inr fun _ => rfl) (.inr fun _ => rfl)
          | setAppenderFormatter ap val =>
              rw [← h]
              exact value_modifyAppender s ap (f := fun a => a.setFormatter val)
                (fun _ => rfl) (.inr fun _ => rfl) (.inl hc)
          | setAppenderLevel ap val =>
              rw [← h]
              exact value_modifyAppender s ap (f := fun a => { a with mLevel := val })
                (fun _ => rfl) (.inl hc) (.inr fun _ => ⟨rfl, rfl⟩)
      | copyFormatter name ap =>
          simp only [expand, Logging.expand]
          split
          · exact h
          · rw [← h]
            exact value_modifyAppender s ap (fun _ => rfl) (.inr fun _ => rfl) (.inl hc)
      | follow name ap =>
          simp only [expand, Logging.expand]
          split
          · exact h
          · rw [← h]
            refine value_modifyAppender s ap (fun a => ?_) (.inr fun a => ?_) (.inl hc)
            · unfold LogAppender.follow
              split <;> rfl
            · unfold LogAppender.follow
              split <;> rfl
      | pushBack name ap =>
          rw [← h]
          exact value_modify s name (.inr fun _ => rfl) (.inl hc) (.inr fun _ => rfl)
      | storeFormatter name val =>
          rw [← h]
          exact value_modify s name (.inr fun _ => rfl) (.inr fun _ => rfl) (.inl hc)
      | setLastTime ap now =>
          cases c with
          | lastTime ap' =>
              have hne : ap' ≠ ap := by simpa [writes] using hc
              simpa [value, member, expand, Logging.expand, hne] using h
          | _ => exact h
      | _ => exact h
  | openFile ap | write ap _ =>
      cases c with
      | stream ap' =>
          have hne : ap' ≠ ap := by simpa [writes] using hc
          simpa [value, fileStream, member, expand, withFile, hne] using h
      | _ => exact h
  | format ap level event =>
      simp only [expand]
      split
      · cases c <;> exact h
      · exact h
  | print text =>
      cases c with
      | cout => simp [writes] at hc
      | _ => exact h
  | _ => exact h

/-! ### Races -/

/-- Two threads are about to access the same cell, and one of them writes it. -/
def Race (s : Locks.Threads LockId Recording Action) (c : Cell) : Prop :=
  ∃ t u b b' is js, t ≠ u ∧ s.code t = .act b :: is ∧ s.code u = .act b' :: js ∧
    c ∈ writes b ∧ c ∈ reads b' ∪ writes b'

variable {strftime : Strftime}

/-- Whatever the threads do, they race only for levels, for the times of file appenders and for
`std::cout`. -/
theorem race_unguarded {s : Locks.Threads LockId Recording Action}
    (h : (system strftime).Reachable s) {c : Cell} (hrace : Race s c) :
  (∃ name, c = .level name) ∨ (∃ ap, c = .appenderLevel ap) ∨ (∃ ap, c = .lastTime ap) ∨
    c = .cout
  := by
  obtain ⟨t, u, b, b', is, js, hne, ht, hu, hb, hb'⟩ := hrace
  have hguard : ∀ m, c.guard ≠ some m := by
    intro m hm
    apply hne
    exact (reachable_covered h).exclusive ht hu (needs_of_access (.inr hb) hm)
      (needs_of_access hb' hm)
  cases c with
  | level name => exact .inl ⟨name, rfl⟩
  | appenderLevel ap => exact .inr (.inl ⟨ap, rfl⟩)
  | lastTime ap => exact .inr (.inr (.inl ⟨ap, rfl⟩))
  | cout => exact .inr (.inr (.inr rfl))
  | loggers => exact absurd rfl (hguard _)
  | appenders name | formatter name => exact absurd rfl (hguard (.logger name))
  | appenderFormatter ap | stream ap => exact absurd rfl (hguard (.appender ap))

/-- Two threads give records to different appenders with the formatter `%m%n`. Each of them
holds the lock of its appender and is about to insert its record into `std::cout`. -/
def inserting : List (Locks.Label Action Environment) :=
  [.call 1 (.run (.run (.newAppender .stdout)) (said "")), .next 1 calm,
    .call 1 (.run (.run (.setAppenderFormatter 1
      (some ⟨"%m%n", [.message, .newLine], false⟩))) (said "")),
    .next 1 calm, .next 1 calm, .next 1 calm, .next 1 calm,
    .call 2 (.run (.run (.setAppenderFormatter 0
      (some ⟨"%m%n", [.message, .newLine], false⟩))) (said "")),
    .next 2 calm, .next 2 calm, .next 2 calm, .next 2 calm,
    .call 1 (.run (.appenderLog 1 .info) (said "one")), .next 1 calm, .next 1 calm, .next 1 calm,
    .call 2 (.run (.appenderLog 0 .info) (said "two")), .next 2 calm, .next 2 calm, .next 2 calm]

theorem race_unguarded_inserting :
  ∃ s, (observed .epoch).exec inserting start = some s ∧ Race s.state .cout ∧
    ((∃ name, Cell.cout = .level name) ∨ (∃ ap, Cell.cout = .appenderLevel ap) ∨
      (∃ ap, Cell.cout = .lastTime ap) ∨ Cell.cout = .cout)
  := by
  obtain ⟨s, hs⟩ : ∃ s, (observed .epoch).exec inserting start = some s :=
    Option.isSome_iff_exists.mp rfl
  have hview : ((observed .epoch).exec inserting start).map (fun s =>
      (s.state.code 1, s.state.code 2)) =
    some ([.act (.print "one\n"), .unlock (.appender 1)],
      [.act (.print "two\n"), .unlock (.appender 0)]) := rfl
  rw [hs, Option.map_some, Option.some_inj, Prod.mk.injEq] at hview
  obtain ⟨hone, htwo⟩ := hview
  have hreachable := Transition.System.Reachable.exec start_reachable inserting hs
  have hrace : Race s.state .cout :=
    ⟨1, 2, _, _, _, _, by decide, hone, htwo, rfl, .inr rfl⟩
  exact ⟨s, hs, hrace, race_unguarded hreachable.of_observed hrace⟩

/-- Actions change only what is guarded by locks that they need. -/
theorem confined :
  Locks.Confined value Cell.guard needs (fun s => s.logging.manager.Links) (expand strftime)
  := by
  intro b env s c m v _ hguard hneeds hv
  apply value_expand strftime _ env hv
  exact fun hc => hneeds (needs_of_access (.inr hc) hguard)

/-- As long as a thread holds a lock, and whatever the other threads do in the meantime, it
keeps the lock, and nothing changes that the lock guards. -/
theorem value_stable {s s' : Locks.Threads LockId Recording Action}
    (h : (system strftime).Reachable s) {ls : List (Locks.Label Action Environment)}
    (hexec : (system strftime).exec ls s = some s') {m : LockId} {t : ℕ}
    (hm : s.owner m = some t) (ht : ∀ l ∈ ls, l.thread ≠ t) :
  s'.owner m = some t ∧
    ∀ (c : Cell) (v : c.Value), c.guard = some m → value c s.shared = some v →
      value c s'.shared = some v
  := Locks.Covered.value_exec (disciplined strftime) (protects strftime) start_of_callable
    confined (reachable_covered h) (Transition.System.exec_of_halting hexec) hm ht

/-- While a thread has written half a record, another one sets the level of `root`. -/
def meanwhile : List (Locks.Label Action Environment) :=
  [.call 3 (.run (.run (.setLevel "root" .info)) (said "")), .next 3 calm, .next 3 calm]

theorem value_stable_meanwhile :
  ∃ s s', (observed .epoch).exec interrupted start = some s ∧
    (system .epoch).exec meanwhile s.state = some s' ∧ s'.owner (.appender 1) = some 1 ∧
    value (.stream 1) s'.shared = some (⟨true, true⟩, [(.reopen, true), (.write "one", true)])
  := by
  obtain ⟨s, hs⟩ : ∃ s, (observed .epoch).exec interrupted start = some s :=
    Option.isSome_iff_exists.mp rfl
  have hview : ((observed .epoch).exec interrupted start).map (fun s =>
      (s.state.owner (.appender 1), value (.stream 1) s.state.shared,
        ((system .epoch).exec meanwhile s.state).isSome)) =
    some (some 1, some (⟨true, true⟩, [(.reopen, true), (.write "one", true)]), true) := rfl
  rw [hs, Option.map_some, Option.some_inj, Prod.mk.injEq, Prod.mk.injEq] at hview
  obtain ⟨howner, hvalue, hsome⟩ := hview
  obtain ⟨s', hs'⟩ := Option.isSome_iff_exists.mp hsome
  have hreachable := Transition.System.Reachable.exec start_reachable interrupted hs
  obtain ⟨howner', hstable⟩ := value_stable hreachable.of_observed hs' howner (by decide)
  exact ⟨s, s', hs, hs', howner', hstable (.stream 1) _ rfl hvalue⟩

end Recording

end WbServer
