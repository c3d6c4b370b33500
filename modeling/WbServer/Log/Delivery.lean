import WbServer.Log.Records

/-!
# Delivery of records

`Logger::log` gives a record to the appenders of the logger one by one. Other threads may log
to the same appenders, set levels, and attach and detach appenders elsewhere in between, but
the list of appenders does not change under the loop, since its thread holds the lock of the
logger.

`Recording.delivered_in_order` concludes that every thread settles its records one by one, in
the order in which they are due: with each appender that was attached when the lock was taken,
exactly once.
-/

namespace WbServer

open Locks (Instr)

namespace Recording

/-- A record for an appender. -/
abbrev Delivery : Type := AppenderId × LogLevel × LogEvent

/-- The deliveries to which a loop over appenders commits its thread. -/
def Observation.owed : Observation → List Delivery
  | .dispatched level event aps => aps.map fun ap => (ap, level, event)
  | _ => []

/-- The delivery that is settled: the appender writes the record, or is set to a higher
level. -/
def Observation.settled : Observation → List Delivery
  | .skipped ap level event => [(ap, level, event)]
  | .began ap _ _ level event => [(ap, level, event)]
  | _ => []

/-- The deliveries that are observed of a thread. -/
def ofThread (t : ℕ) (f : Observation → List Delivery) (history : List (ℕ × Observation)) :
    List Delivery :=
  history.flatMap fun o => if o.1 = t then f o.2 else []

/-- The deliveries that are still ahead of a thread. -/
def due (s : Recording) : Instr LockId Action → List Delivery
  | .act (.run (.eachLog name level i) event) =>
      ((s.appenders name).drop i).map fun ap => (ap, level, event)
  | .act (.run (.appenderLog ap level) event) => [(ap, level, event)]
  | .act (.format ap level event) => [(ap, level, event)]
  | _ => []

/-- The lock that is held as long as a loop over the appenders of a logger is not done. -/
def keeps : Action → Set LockId
  | .run (.eachLog name _ _) _ => {.logger name}
  | _ => ∅

/-- The actions of `Logger::log` up to the loop over the appenders. -/
def Calls : Action → Prop
  | .run (.log _ _) _ | .run (.dispatch _ _) _ => True
  | _ => False

/-- The actions of `Logger::log`, of which there is only one at a time. -/
def Delivers : Action → Prop
  | .run (.eachLog _ _ _) _ => True
  | b => Calls b

/-- The actions of which the `log` of an appender consists. -/
def Appends : Action → Prop
  | .run (.appenderLog _ _) _ | .run (.reopen _) _ | .run (.setLastTime _ _) _ => True
  | .openFile _ | .format _ _ _ | .write _ _ | .testStream _ | .print _ => True
  | _ => False

/-- The actions of the code satisfy `P`. -/
def Only (P : Action → Prop) (is : List (Instr LockId Action)) : Prop :=
  ∀ b, .act b ∈ is → P b

theorem Only.append {P : Action → Prop} {is js : List (Instr LockId Action)} (h : Only P is)
    (h' : Only P js) :
  Only P (is ++ js)
  := by
  intro b hb
  rcases List.mem_append.mp hb with hb | hb
  · apply h b hb
  · apply h' b hb

theorem Only.tail {P : Action → Prop} {i : Instr LockId Action} {is : List (Instr LockId Action)}
    (h : Only P (i :: is)) :
  Only P is
  := fun b hb => h b (List.mem_cons_of_mem i hb)

/-- Code of actions only. -/
theorem Only.map {P : Action → Prop} {bs : List Action} (h : ∀ b ∈ bs, P b) :
  Only P (bs.map .act)
  := by
  intro b hb
  obtain ⟨b', hb', ⟨rfl⟩⟩ := List.mem_map.mp hb
  apply h b hb'

theorem Only.printing {P : Action → Prop} (h : ∀ text, P (.print text)) (texts : List String) :
  Only P (printing texts)
  := by
  rw [printing_eq]
  apply Only.map
  intro b hb
  obtain ⟨text, -, rfl⟩ := List.mem_map.mp hb
  apply h

/-- Accesses are no actions of `Logger::log`. -/
theorem Leaf.not_delivers {b : Action} (h : Leaf b) :
  ¬ Delivers b
  := by
  cases b with
  | run => cases h
  | _ => exact id

/-- The actions of filled sections. -/
theorem Only.fill {P : Action → Prop} {event : LogEvent} {bs : List Action}
    (hbs : ∀ b ∈ bs, P b) {is : List (Instr LockId Logging.Action)}
    (his : ∀ a, .act a ∈ is → P (.run a event)) :
  Only P (is.flatMap (fill event bs))
  := by
  intro b hb
  obtain ⟨i, hi, hb⟩ := List.mem_flatMap.mp hb
  cases i with
  | lock m => exact hbs b (by simpa [Recording.fill] using hb)
  | unlock m => simp [Recording.fill] at hb
  | act a =>
      obtain rfl : b = .run a event := by simpa [Recording.fill] using hb
      apply his a hi

/-- Only `Logger::log` leads to its actions. -/
theorem only_run {a : Logging.Action} {event : LogEvent} (ha : ¬ Delivers (.run a event))
    (now : ℕ) (s : Logging) :
  Only (fun b => ¬ Delivers b)
    ((Logging.expand a now s).2.flatMap (fill event (body event a)))
  := by
  apply Only.fill fun b hb => (leaf_body event a b hb).not_delivers
  cases a with
  | log | dispatch | eachLog => exact absurd trivial ha
  | run op =>
      cases op with
      | newAppender kind => cases kind <;> simp [Logging.expand, Logging.run, Delivers, Calls]
      | setPattern name val =>
          simp only [Logging.expand, Logging.run]
          split <;> simp [Delivers, Calls]
      | _ => simp [Logging.expand, Logging.run, Logging.guarded, Delivers, Calls]
  | testFormatter name ap =>
      simp only [Logging.expand]
      split <;> simp [Logging.guarded, Delivers, Calls]
  | appenderLog ap level =>
      simp only [Logging.expand, Logging.appenderLog]
      split
      · split
        · simp [Logging.guarded]
        · split <;> simp [Logging.guarded, Delivers, Calls]
      · simp
  | eachLogger | eachFollow | eachToYamlString =>
      simp only [Logging.expand]
      split <;> simp [Logging.guarded, Delivers, Calls]
  | _ => simp [Logging.expand, Logging.guarded, Delivers, Calls]

variable (strftime : Strftime)

/-- The same with the messages of the action, and for accesses. -/
theorem only_expand {b : Action} (hb : ¬ Delivers b) (env : Environment) (s : Recording) :
  Only (fun b => ¬ Delivers b) (expand strftime b env s).2
  := by
  obtain hleaf | ⟨a, event, rfl⟩ := leaf_or_run b
  · obtain ⟨bs, heq, hbs⟩ := leaf_expand strftime hleaf env s
    rw [heq]
    exact Only.map fun b' hb' => (hbs b' hb').1.not_delivers
  · exact (Only.printing (fun _ => id) _).append (only_run hb env.now s.logging)

/-- The `log` of an appender leads to its own actions. -/
theorem appends_expand {b : Action} (hb : Appends b) (env : Environment) (s : Recording) :
  Only Appends (expand strftime b env s).2
  := by
  cases b with
  | run a event =>
      have hprinting : Only Appends (printing (messages a)) := Only.printing (fun _ => trivial) _
      apply hprinting.append
      cases a with
      | appenderLog ap level =>
          simp only [Logging.expand, Logging.appenderLog]
          split
          · split
            · simp [Only, Logging.guarded, fill, body, Appends]
            · split <;> simp [Only, Logging.guarded, fill, body, Appends]
          · simp [Only]
      | reopen | setLastTime => simp [Only, Logging.expand, Logging.guarded, fill, body, Appends]
      | _ => cases hb
  | format ap level event =>
      simp only [expand]
      split
      · simp [Only, Appends]
      · dsimp only [formatting]
        split
        · simp [Only, printing, Appends]
        · rw [writing_eq]
          have hwrites : ∀ text, Appends (.write ap text) := fun _ => trivial
          have htest : Only Appends [.act (.testStream ap)] := by simp [Only, Appends]
          exact (Only.map (by simp [hwrites])).append htest
  | testStream ap =>
      simp only [expand]
      split <;> simp [Only, printing, Appends]
  | _ => simp [Only, expand]

/-! ### The list of appenders -/

/-- A new logger has no appenders. -/
theorem appenders_getLogger (m : LoggerManager) (name name' : String) :
  (((m.getLogger name').mLoggers name).map fun l => l.mAppenders).getD [] =
    ((m.mLoggers name).map fun l => l.mAppenders).getD []
  := by
  unfold LoggerManager.getLogger
  split
  case h_1 => rfl
  case h_2 hnone =>
    by_cases hname : name = name'
    · subst hname
      simp [hnone, Logger.new]
    · rw [LoggerManager.set_of_ne m hname]

/-- Accesses do not change the lists of appenders. -/
theorem appenders_of_leaf {b : Action} (hb : Leaf b) (env : Environment) (s : Recording) :
  (expand strftime b env s).1.appenders = s.appenders
  := by
  funext name
  rw [appenders, logging_expand strftime hb, appenders]

/-- The list of appenders of a logger is changed only under its lock. -/
theorem appenders_expand {b : Action} {name : String} (hb : .logger name ∉ needs b)
    (env : Environment) (s : Recording) :
  (expand strftime b env s).1.appenders name = s.appenders name
  := by
  obtain hleaf | ⟨a, event, rfl⟩ := leaf_or_run b
  · rw [appenders_of_leaf strftime hleaf]
  · cases a with
    | run op => cases op <;> rfl
    | apply op =>
        cases op with
        | getLogger name' => apply appenders_getLogger
        | delAppender name' ap =>
            have hne : name ≠ name' := by simpa [needs, needsRun] using hb
            exact congrArg (Option.getD · []) (LoggerManager.map_modify_of_ne _ hne _ _)
        | clearAppender name' =>
            have hne : name ≠ name' := by simpa [needs, needsRun] using hb
            exact congrArg (Option.getD · []) (LoggerManager.map_modify_of_ne _ hne _ _)
        | setLevel name' val =>
            exact congrArg (Option.getD · []) (LoggerManager.map_modify _ name name' fun _ => rfl)
        | addAppender | setFormatter | setPattern => simp [needs, needsRun] at hb
        | _ => rfl
    | copyFormatter name' ap | follow name' ap =>
        simp only [expand, Logging.expand]
        split <;> rfl
    | pushBack name' ap =>
        have hne : name ≠ name' := by simpa [needs, needsRun] using hb
        exact congrArg (Option.getD · []) (LoggerManager.map_modify_of_ne _ hne _ _)
    | storeFormatter name' val =>
        exact congrArg (Option.getD · []) (LoggerManager.map_modify _ name name' fun _ => rfl)
    | _ => rfl

/-- Logging a record does not change the lists of appenders. -/
theorem appenders_expand_of_delivers {b : Action} (hb : Delivers b ∨ Appends b)
    (env : Environment) (s : Recording) :
  (expand strftime b env s).1.appenders = s.appenders
  := by
  obtain hleaf | ⟨a, event, rfl⟩ := leaf_or_run b
  · apply appenders_of_leaf strftime hleaf
  · cases a <;> first | rfl | simp [Delivers, Calls, Appends] at hb

/-- The loop over the appenders is at its end. -/
theorem drop_of_appender?_none {s : Recording} {name : String} {i : ℕ}
    (h : s.logging.appender? name i = none) :
  (s.appenders name).drop i = []
  := by
  unfold Logging.appender? at h
  unfold appenders
  cases hl : s.logging.manager.mLoggers name with
  | none => simp
  | some l =>
      rw [hl] at h
      simpa using h

/-- The loop over the appenders is at an appender. -/
theorem drop_of_appender?_some {s : Recording} {name : String} {i : ℕ} {ap : AppenderId}
    (h : s.logging.appender? name i = some ap) :
  (s.appenders name).drop i = ap :: (s.appenders name).drop (i + 1)
  := by
  unfold Logging.appender? at h
  unfold appenders
  cases hl : s.logging.manager.mLoggers name with
  | none => simp [hl] at h
  | some l =>
      have hap : l.mAppenders[i]? = some ap := by simpa [hl] using h
      obtain ⟨hi, rfl⟩ := List.getElem?_eq_some_iff.mp hap
      exact List.drop_eq_getElem_cons hi

theorem due_printing (texts : List String) (s : Recording) :
  (printing texts).flatMap (due s) = []
  := by
  simp [printing, due]

/-- What is due of an action on loggers and appenders is due of the code that it leads to, or
settled because the appender has a higher level. -/
theorem due_run {a : Logging.Action} {event : LogEvent} (ha : ¬ Calls (.run a event)) (now : ℕ)
    (s : Recording) :
  due s (.act (.run a event)) = (observe s (.run a event)).flatMap Observation.settled ++
    ((Logging.expand a now s.logging).2.flatMap (fill event (body event a))).flatMap (due s)
  := by
  cases a with
  | log | dispatch => exact absurd trivial ha
  | run op =>
      cases op with
      | newAppender kind =>
          cases kind <;> simp [due, observe, Logging.expand, Logging.run, fill]
      | setPattern name val =>
          simp only [Logging.expand, Logging.run]
          split <;> simp [due, observe, fill]
      | _ => simp [due, observe, Logging.expand, Logging.run, Logging.guarded, fill, body]
  | testFormatter name ap =>
      simp only [Logging.expand]
      split <;> simp [due, observe, Logging.guarded, fill, body]
  | appenderLog ap level =>
      simp only [Logging.expand, Logging.appenderLog, observe]
      split
      · split
        · simp [due, Logging.guarded, fill, body]
        · split <;> simp [due, Logging.guarded, fill, body]
      · simp [due, Observation.settled]
  | eachLog name level i =>
      simp only [Logging.expand, observe]
      split
      case h_1 hnone => simp [due, drop_of_appender?_none hnone]
      case h_2 ap hap => simp [due, drop_of_appender?_some hap, fill, body]
  | eachLogger | eachFollow | eachToYamlString =>
      simp only [Logging.expand]
      split <;> simp [due, observe, Logging.guarded, fill, body]
  | _ => simp [due, observe, Logging.expand, Logging.guarded, fill, body]

/-- What is due of an action is settled, or due of the code that it leads to. -/
theorem due_expand {b : Action} (hb : ¬ Calls b) (env : Environment) (s : Recording) :
  due s (.act b) = (observe s b).flatMap Observation.settled ++
    (expand strftime b env s).2.flatMap (due s)
  := by
  cases b with
  | run a event =>
      simp only [expand, List.flatMap_append, due_printing, List.nil_append]
      apply due_run hb
  | format ap level event =>
      simp only [expand, observe]
      split
      · simp
      · unfold formatting
        split <;> simp [writing, printing, due, Observation.settled]
  | testStream ap =>
      simp only [expand]
      split
      · rfl
      · rw [due_printing]
        rfl
  | _ => rfl

/-- `Logger::log` inserts nothing into `std::cout` itself. -/
theorem expand_of_delivers {a : Logging.Action} {event : LogEvent} (ha : Delivers (.run a event))
    (env : Environment) (s : Recording) :
  (expand strftime (.run a event) env s).2 =
    (Logging.expand a env.now s.logging).2.flatMap (fill event (body event a))
  := by
  cases a with
  | log | dispatch | eachLog => rfl
  | _ => cases ha

/-! ### The loop holds the lock -/

theorem keeps_of_not_delivers {b : Action} (h : ¬ Delivers b) :
  keeps b = ∅
  := by
  cases b with
  | run a event => cases a <;> first | rfl | exact absurd trivial h
  | _ => rfl

/-- A loop over appenders is begun and continued under the lock of its logger. -/
theorem protects_keeps :
  Locks.Protects needs entry ∅ keeps (expand strftime)
  := by
  intro b env s
  by_cases hb : Delivers b
  · cases b with
    | run a event =>
        rw [expand_of_delivers strftime hb]
        cases a with
        | log name level =>
            simp only [Logging.expand]
            split
            · trivial
            · split <;> simp [Locks.Guarded, Logging.guarded, fill, body, keeps]
        | dispatch name level =>
            simp only [Logging.expand]
            split
            · trivial
            · split
              · split <;> simp [Locks.Guarded, fill, keeps]
              · simp [Locks.Guarded, fill, keeps, needs, needsRun]
        | eachLog name level i =>
            simp only [Logging.expand]
            split
            · trivial
            · simp [Locks.Guarded, fill, body, keeps, needs, needsRun, entry, Logging.entry]
        | _ => cases hb
    | _ => cases hb
  · apply Locks.guarded_of_forall
    intro b' hb'
    apply keeps_of_not_delivers (only_expand strftime hb env s b' hb')

/-- No operation begins inside a loop. -/
theorem keeps_of_callable (b : Action) (s : Recording) (h : callable b s = true) :
  keeps b = ∅
  := by
  cases b with
  | run a event => cases a <;> first | rfl | simp [callable, Logging.callable] at h
  | _ => rfl

/-! ### One loop at a time -/

/-- Code that releases locks. -/
def Unlocks (is : List (Instr LockId Action)) : Prop :=
  ∀ i ∈ is, ∃ m, i = .unlock m

/-- Code with at most one action of `Logger::log`: in front of a loop is what is left of one of
its appenders, and behind it locks are released. -/
def Single (is : List (Instr LockId Action)) : Prop :=
  Only (fun b => ¬ Delivers b) is ∨
    ∃ zs b us, is = zs ++ .act b :: us ∧ Delivers b ∧ Unlocks us ∧
      Only (fun b' => Appends b' ∧ ¬ Calls b) zs

theorem Unlocks.only {us : List (Instr LockId Action)} (h : Unlocks us) (P : Action → Prop) :
  Only P us
  := by
  intro b hb
  obtain ⟨m, hm⟩ := h _ hb
  cases hm

theorem Unlocks.cons {us : List (Instr LockId Action)} (h : Unlocks us) (m : LockId) :
  Unlocks (.unlock m :: us)
  := by
  intro i hi
  rcases List.mem_cons.mp hi with rfl | hi
  · exact ⟨m, rfl⟩
  · apply h i hi

theorem Calls.delivers {b : Action} (h : Calls b) :
  Delivers b
  := by
  cases b with
  | run a event => cases a <;> first | exact h | trivial
  | _ => exact h

theorem Appends.not_delivers {b : Action} (h : Appends b) :
  ¬ Delivers b
  := by
  cases b with
  | run a event => cases a <;> first | exact id | cases h
  | _ => exact id

/-- An instruction that is no action is executed. -/
theorem Single.tail {i : Instr LockId Action} {is : List (Instr LockId Action)}
    (h : Single (i :: is)) (hi : ∀ b, i ≠ .act b) :
  Single is
  := by
  rcases h with honly | ⟨zs, b, us, heq, hb, hus, hzs⟩
  · left
    apply honly.tail
  · cases zs with
    | nil => exact absurd (List.cons.inj heq).1 (hi b)
    | cons z zs =>
        obtain ⟨rfl, rfl⟩ := List.cons.inj heq
        exact .inr ⟨zs, b, us, rfl, hb, hus, hzs.tail⟩

/-- What `Logger::log` leads to: the next part of it, or the `log` of an appender and the rest
of the loop. -/
theorem single_expand {b : Action} (hb : Delivers b) (env : Environment) (s : Recording)
    {us : List (Instr LockId Action)} (hus : Unlocks us) :
  Single ((expand strftime b env s).2 ++ us)
  := by
  cases b with
  | run a event =>
      rw [expand_of_delivers strftime hb]
      cases a with
      | log name level =>
          simp only [Logging.expand]
          split
          · exact .inl (hus.only _)
          · split
            · right
              refine ⟨[.lock (.logger name)], .run (.dispatch name level) event,
                .unlock (.logger name) :: us, ?_, trivial, hus.cons _, ?_⟩
              · simp [Logging.guarded, fill, body]
              · simp [Only]
            · exact .inl (hus.only _)
      | dispatch name level =>
          simp only [Logging.expand]
          split
          · exact .inl (hus.only _)
          · split
            · split
              case h_1 => exact .inl (hus.only _)
              case h_2 root _ =>
                right
                refine ⟨[], .run (.log root level) event, us, rfl, trivial, hus, ?_⟩
                simp [Only]
            · right
              refine ⟨[], .run (.eachLog name level 0) event, us, rfl, trivial, hus, ?_⟩
              simp [Only]
      | eachLog name level i =>
          simp only [Logging.expand]
          split
          · exact .inl (hus.only _)
          · right
            refine ⟨[.act (.run (.appenderLog _ level) event)],
              .run (.eachLog name level (i + 1)) event, us, rfl, trivial, hus, ?_⟩
            simp [Only, Appends, Calls]
      | _ => cases hb
  | _ => cases hb

/-- An action is executed. -/
theorem Single.act {b : Action} {is : List (Instr LockId Action)} (h : Single (.act b :: is))
    (env : Environment) (s : Recording) :
  Single ((expand strftime b env s).2 ++ is)
  := by
  rcases h with honly | ⟨zs, b', us, heq, hb', hus, hzs⟩
  · left
    apply Only.append _ honly.tail
    apply only_expand
    apply honly b List.mem_cons_self
  · cases zs with
    | nil =>
        obtain ⟨⟨rfl⟩, rfl⟩ := List.cons.inj heq
        apply single_expand strftime hb' env s hus
    | cons z zs =>
        obtain ⟨rfl, rfl⟩ := List.cons.inj heq
        obtain ⟨hb, hcalls⟩ := hzs b List.mem_cons_self
        right
        refine ⟨(expand strftime b env s).2 ++ zs, b', us, ?_, hb', hus, ?_⟩
        · rw [List.append_assoc]
          rfl
        · apply Only.append _ hzs.tail
          exact fun b hb' => ⟨appends_expand strftime hb env s b hb', hcalls⟩

/-! ### The balance -/

/-- Nothing is due of code that releases locks. -/
theorem Unlocks.due {us : List (Instr LockId Action)} (h : Unlocks us) (s : Recording) :
  us.flatMap (due s) = []
  := by
  apply List.flatMap_eq_nil_iff.mpr
  intro i hi
  obtain ⟨m, rfl⟩ := h i hi
  rfl

/-- What is due depends on the lists of appenders over which loops run. -/
theorem due_congr {s s' : Recording} {is : List (Instr LockId Action)}
    (h : ∀ name level i event, .act (.run (.eachLog name level i) event) ∈ is →
      s'.appenders name = s.appenders name) :
  is.flatMap (due s') = is.flatMap (due s)
  := by
  apply List.flatMap_congr
  intro i hi
  cases i with
  | act b =>
      cases b with
      | run a event =>
          cases a with
          | eachLog name level i => simp only [due, h name level i event hi]
          | _ => rfl
      | _ => rfl
  | _ => rfl

/-- `Logger::log` commits its thread to what is due of the code that it leads to. -/
theorem owed_of_calls {b : Action} (hb : Calls b) (env : Environment) (s : Recording) :
  due s (.act b) = [] ∧ (observe s b).flatMap Observation.settled = [] ∧
    (observe s b).flatMap Observation.owed = (expand strftime b env s).2.flatMap (due s)
  := by
  cases b with
  | run a event =>
      rw [expand_of_delivers strftime hb.delivers]
      cases a with
      | log name level =>
          refine ⟨rfl, rfl, ?_⟩
          simp only [Logging.expand]
          split
          · rfl
          · split <;> rfl
      | dispatch name level =>
          refine ⟨rfl, rfl, ?_⟩
          simp only [Logging.expand, observe, appenders]
          split
          case h_1 hl => simp [hl, Observation.owed]
          case h_2 l hl =>
            split
            case isTrue hnil =>
              split <;> simp [hl, hnil, Observation.owed, fill, due]
            case isFalse => simp [hl, Observation.owed, fill, due, appenders]
      | _ => cases hb
  | _ => cases hb

/-- Only `Logger::log` commits its thread. -/
theorem owed_of_not_calls {b : Action} (hb : ¬ Calls b) (s : Recording) :
  (observe s b).flatMap Observation.owed = []
  := by
  cases b with
  | run a event =>
      cases a with
      | dispatch => exact absurd trivial hb
      | appenderLog ap level =>
          simp only [observe]
          split <;> rfl
      | _ => rfl
  | format ap level event =>
      simp only [observe]
      split <;> rfl
  | _ => rfl

theorem ofThread_append (t : ℕ) (f : Observation → List Delivery)
    (h h' : List (ℕ × Observation)) :
  ofThread t f (h ++ h') = ofThread t f h ++ ofThread t f h'
  := List.flatMap_append ..

theorem ofThread_map_self (t : ℕ) (f : Observation → List Delivery) (os : List Observation) :
  ofThread t f (os.map (t, ·)) = os.flatMap f
  := by
  simp [ofThread, List.flatMap_map]

theorem ofThread_map_of_ne {t u : ℕ} (hut : u ≠ t) (f : Observation → List Delivery)
    (os : List Observation) :
  ofThread u f (os.map (t, ·)) = []
  := by
  simp [ofThread, List.flatMap_map, Ne.symm hut]

variable {strftime} {s : Locks.Threads LockId Recording Action}

/-- An action does not change the lists of appenders over which its thread loops. -/
theorem Single.appenders {b : Action} {is : List (Instr LockId Action)}
    (h : Single (.act b :: is)) (env : Environment) (r : Recording) {name : String}
    {level : LogLevel} {i : ℕ} {event : LogEvent}
    (hmem : .act (.run (.eachLog name level i) event) ∈ (expand strftime b env r).2 ++ is) :
  (expand strftime b env r).1.appenders name = r.appenders name
  := by
  by_cases hb : Delivers b ∨ Appends b
  · rw [appenders_expand_of_delivers strftime hb]
  · obtain ⟨hb, happends⟩ := not_or.mp hb
    rcases h with honly | ⟨zs, b', us, heq, hb', -, hzs⟩
    · -- the code has no loop
      have hrest := (only_expand strftime hb env r).append honly.tail
      exact absurd trivial (hrest _ hmem)
    · cases zs with
      | nil =>
          obtain ⟨⟨rfl⟩, rfl⟩ := List.cons.inj heq
          exact absurd hb' hb
      | cons z zs =>
          obtain ⟨rfl, rfl⟩ := List.cons.inj heq
          exact absurd (hzs b List.mem_cons_self).1 happends

/-- What is due of the code of a thread that executes an action. -/
theorem Single.due_act {b : Action} {is : List (Instr LockId Action)}
    (h : Single (.act b :: is)) (env : Environment) (r : Recording) :
  (.act b :: is).flatMap (due r) ++ (observe r b).flatMap Observation.owed =
    (observe r b).flatMap Observation.settled ++
      ((expand strftime b env r).2 ++ is).flatMap (due (expand strftime b env r).1)
  := by
  have hcongr : ((expand strftime b env r).2 ++ is).flatMap (due (expand strftime b env r).1) =
      ((expand strftime b env r).2 ++ is).flatMap (due r) :=
    due_congr fun name level i event hmem => h.appenders env r hmem
  rw [hcongr, List.flatMap_cons, List.flatMap_append]
  by_cases hb : Calls b
  · have hrest : is.flatMap (due r) = [] := by
      rcases h with honly | ⟨zs, b', us, heq, hb', hus, hzs⟩
      · exact absurd hb.delivers (honly b List.mem_cons_self)
      · cases zs with
        | nil =>
            obtain ⟨⟨rfl⟩, rfl⟩ := List.cons.inj heq
            apply hus.due
        | cons z zs =>
            obtain ⟨rfl, rfl⟩ := List.cons.inj heq
            exact absurd hb.delivers (hzs b List.mem_cons_self).1.not_delivers
    obtain ⟨hdue, hsettled, howed⟩ := owed_of_calls strftime hb env r
    rw [hdue, hsettled, howed, hrest]
    simp
  · rw [owed_of_not_calls hb, due_expand strftime hb env r]
    simp

/-- Every thread has at most one loop at a time, and has settled what it owes up to what is
still due. -/
structure Settles (s : Transition.System.Observed (Locks.Threads LockId Recording Action)
    (ℕ × Observation)) : Prop where
  single : ∀ t, Single (s.state.code t)
  balance : ∀ t, ofThread t Observation.owed s.history =
    ofThread t Observation.settled s.history ++
      (s.state.code t).flatMap (due s.state.shared)

/-- The thread takes or releases a lock. -/
theorem Settles.lock {s s' : Transition.System.Observed (Locks.Threads LockId Recording Action)
    (ℕ × Observation)} (h : Settles s) {t : ℕ} {i : Instr LockId Action}
    {is : List (Instr LockId Action)} (ht : s.state.code t = i :: is) (hi : ∀ b, i ≠ .act b)
    (hshared : s'.state.shared = s.state.shared)
    (hcode : s'.state.code = Function.update s.state.code t is)
    (hhistory : s'.history = s.history) :
  Settles s'
  := by
  have hsingle := h.single t
  have hbalance := h.balance t
  rw [ht] at hsingle hbalance
  have hdue : due s.state.shared i = [] := by
    cases i with
    | act b => exact absurd rfl (hi b)
    | _ => rfl
  constructor
  case single =>
    intro u
    rw [hcode]
    by_cases hut : u = t
    · rw [hut, Function.update_self]
      apply hsingle.tail hi
    · rw [Function.update_of_ne hut]
      apply h.single u
  case balance =>
    intro u
    rw [hcode, hshared, hhistory]
    by_cases hut : u = t
    · rw [hut, Function.update_self, hbalance, List.flatMap_cons, hdue, List.nil_append]
    · rw [Function.update_of_ne hut]
      apply h.balance u

/-- A thread executes an instruction. -/
theorem Settles.next {s s' : Transition.System.Observed (Locks.Threads LockId Recording Action)
    (ℕ × Observation)} (hreachable : (system strftime).Reachable s.state) (h : Settles s)
    {t : ℕ} {env : Environment} (hnext : s.state.next (expand strftime) t env = some s'.state)
    (hhistory : s'.history = s.history ++ emit (.next t env) s.state) :
  Settles s'
  := by
  have hsingle := h.single t
  have hbalance := h.balance t
  obtain ⟨m, is, ht, -, heq⟩ | ⟨m, is, ht, heq⟩ | ⟨b, is, ht, heq⟩ :=
    Locks.Threads.next_cases hnext
  · apply h.lock ht (by simp)
    · rw [heq]
    · rw [heq]
    · simp [hhistory, emit, ht]
  · apply h.lock ht (by simp)
    · rw [heq]
    · rw [heq]
    · simp [hhistory, emit, ht]
  · rw [emit_act ht] at hhistory
    rw [ht] at hsingle hbalance
    constructor
    case single =>
      intro u
      rw [heq]
      by_cases hut : u = t
      · rw [hut]
        dsimp only
        rw [Function.update_self]
        apply hsingle.act
      · dsimp only
        rw [Function.update_of_ne hut]
        apply h.single u
    case balance =>
      intro u
      rw [heq, hhistory, ofThread_append, ofThread_append]
      dsimp only
      by_cases hut : u = t
      · rw [hut, Function.update_self, ofThread_map_self, ofThread_map_self, hbalance,
          List.append_assoc, List.append_assoc, hsingle.due_act]
      · rw [Function.update_of_ne hut, ofThread_map_of_ne hut, ofThread_map_of_ne hut,
          List.append_nil, List.append_nil, h.balance u]
        congr 1
        symm
        apply due_congr
        intro name level i event hmem
        -- the other thread holds the lock of the logger
        have hu : s.state.owner (.logger name) = some u := by
          apply Locks.reachable_keeps (disciplined strftime) (protects strftime)
            start_of_callable (protects_keeps strftime) keeps_of_callable _ hreachable.of_halting
            hmem
          · rfl
          · rintro _ rfl
            apply LoggerManager.links_new
        apply appenders_expand
        intro hneeds
        have ht' : s.state.owner (.logger name) = some t :=
          (reachable_covered hreachable).needs_subset ht hneeds
        rw [hu] at ht'
        exact hut (Option.some.inj ht')

/-- What a thread owes when it begins with an operation: `log` of an appender is due at once. -/
theorem due_of_callable {b : Action} {r : Recording} (hb : callable b r = true) :
  due r (.act b) = (observeCall b).flatMap Observation.owed ∧
    (observeCall b).flatMap Observation.settled = []
  := by
  cases b with
  | run a event =>
      cases a with
      | eachLog => simp [callable, Logging.callable] at hb
      | _ => exact ⟨rfl, rfl⟩
  | _ => simp [callable] at hb

/-- A thread begins with an operation. -/
theorem Settles.call {s s' : Transition.System.Observed (Locks.Threads LockId Recording Action)
    (ℕ × Observation)} (h : Settles s) {t : ℕ} {b : Action} (ht : s.state.code t = [])
    (hb : callable b s.state.shared = true)
    (hstate : s'.state = { s.state with code := Function.update s.state.code t [.act b] })
    (hhistory : s'.history = s.history ++ emit (.call t b) s.state) :
  Settles s'
  := by
  constructor
  case single =>
    intro u
    rw [hstate]
    dsimp only
    by_cases hut : u = t
    · rw [hut, Function.update_self]
      by_cases hdelivers : Delivers b
      · exact .inr ⟨[], b, [], rfl, hdelivers, by simp [Unlocks], by simp [Only]⟩
      · exact .inl (by simpa [Only] using hdelivers)
    · rw [Function.update_of_ne hut]
      apply h.single u
  case balance =>
    intro u
    rw [hstate, hhistory, ofThread_append, ofThread_append]
    dsimp only [emit]
    by_cases hut : u = t
    · obtain ⟨hdue, hsettled⟩ := due_of_callable hb
      rw [hut, Function.update_self, ofThread_map_self, ofThread_map_self, h.balance t, ht,
        hsettled, List.flatMap_singleton, hdue]
      simp
    · rw [Function.update_of_ne hut, ofThread_map_of_ne hut, ofThread_map_of_ne hut,
        List.append_nil, List.append_nil, h.balance u]

/-- Whatever the other threads do, a thread settles its deliveries in the order in which it owes
them, each of them once: with the appenders that were attached to a logger when the thread had
taken the lock of the logger to log a record. When it has finished, it has settled all. -/
theorem delivered_in_order
    {s : Transition.System.Observed (Locks.Threads LockId Recording Action) (ℕ × Observation)}
    (h : (observed strftime).Reachable s) (t : ℕ) :
  ofThread t Observation.owed s.history =
      ofThread t Observation.settled s.history ++
        (s.state.code t).flatMap (due s.state.shared) ∧
    (s.state.code t = [] →
      ofThread t Observation.owed s.history = ofThread t Observation.settled s.history)
  := by
  have hsettles : (system strftime).Reachable s.state ∧ Settles s := by
    apply h.invariant
    · rintro s ⟨hs, hhistory⟩
      use .init hs
      obtain ⟨-, -, hcode⟩ := hs
      constructor
      case single =>
        intro t
        rw [hcode t]
        exact .inl (by simp [Only])
      case balance =>
        intro t
        rw [hhistory, hcode t]
        rfl
    · rintro l s s' ⟨hreachable, hs⟩ - hstep
      obtain ⟨hstep, hhistory⟩ := Transition.System.observed_step.mp hstep
      use hreachable.step trivial hstep
      obtain ⟨-, hstep⟩ := Transition.System.halting_step.mp hstep
      obtain ⟨u, b, rfl, hcode, hb, heq⟩ | ⟨u, env, rfl, hnext⟩ := Locks.Threads.step_cases hstep
      · apply hs.call hcode hb heq hhistory
      · apply hs.next hreachable hnext hhistory
  have hbalance := hsettles.2.balance t
  use hbalance
  intro hdone
  rw [hbalance, hdone]
  apply List.append_nil

/-- A thread attaches a second appender to `root` and logs a record there. The first appender
has its record when the other thread has begun to detach the second one, and waits. -/
def detaching : List (Locks.Label Action Environment) :=
  [.call 1 (.run (.run (.newAppender .stdout)) (said "")), .next 1 calm,
    .call 1 (.run (.run (.addAppender "root" 1)) (said "")), .next 1 calm, .next 1 calm,
    .next 1 calm, .next 1 calm, .next 1 calm, .next 1 calm, .next 1 calm, .next 1 calm,
    .next 1 calm, .next 1 calm,
    .call 1 (.run (.log "root" .info) (said "one")), .next 1 calm, .next 1 calm, .next 1 calm,
    .next 1 calm, .next 1 calm, .next 1 calm, .next 1 calm, .next 1 calm, .next 1 calm,
    .call 2 (.run (.run (.delAppender "root" 1)) (said "")), .next 2 calm]

theorem delivered_in_order_detaching :
  ∃ s, (observed .epoch).exec detaching start = some s ∧
    ofThread 1 Observation.settled s.history = [(0, .info, said "one")] ∧
    ofThread 1 Observation.owed s.history = [(0, .info, said "one"), (1, .info, said "one")]
  := by
  obtain ⟨s, hs⟩ : ∃ s, (observed .epoch).exec detaching start = some s :=
    Option.isSome_iff_exists.mp rfl
  have hview : ((observed .epoch).exec detaching start).map (fun s =>
      (ofThread 1 Observation.settled s.history,
        (s.state.code 1).flatMap (due s.state.shared))) =
    some ([(0, .info, said "one")], [(1, .info, said "one")]) := rfl
  rw [hs, Option.map_some, Option.some_inj, Prod.mk.injEq] at hview
  obtain ⟨hsettled, hdue⟩ := hview
  have hreachable := Transition.System.Reachable.exec start_reachable detaching hs
  refine ⟨s, hs, hsettled, ?_⟩
  rw [(delivered_in_order hreachable 1).1, hsettled, hdue]
  rfl

end Recording

end WbServer
