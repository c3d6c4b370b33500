import WbServer.Base.Exclusion
import WbServer.Log.File
import WbServer.Log.Locks

/-!
# Records of several threads

The logging interface with what the threads do inside the sections that `Log/Locks.lean`
leaves empty: they read a formatter, close and open a file, and write a record. A file
appender writes the items of its formatter one by one to a stream of its own, and other threads
run in between. The other appenders share `std::cout`, into which a record is inserted at once.
An appender that has to write a record without a formatter crashes the process.

What is observed of the steps are the lists of appenders to which records are given, and what
the appenders do with them. `Recording.streams_whole` says that every stream consists of whole
records in the order in which they were begun, and `Recording.progress` that some thread can
always go on, unless the process has crashed.
-/

namespace WbServer

open Locks (Instr)

/-- What an appender does to the stream of its file. -/
inductive StreamOp where
  | reopen
  | write (text : String)
  deriving DecidableEq

/-- The text that is written. -/
def StreamOp.text : StreamOp → String
  | .reopen => ""
  | .write text => text

/-- The loggers and appenders; the streams of the file appenders, and what has been done to
them, each time with the state of the stream behind it; what has been inserted into `std::cout`;
and whether the process has crashed. -/
structure Recording where
  logging : Logging
  files : AppenderId → OfStream
  streams : AppenderId → List (StreamOp × Bool)
  cout : List String
  crashed : Bool

/-- What the environment decides: the time, and whether files can be opened, closed and
written. -/
structure Recording.Environment where
  now : ℕ
  opens : Bool
  closes : Bool
  writes : Bool

/-- The actions of the logging interface, for a record `event` if they are about one, and the
accesses inside the sections and to `std::cout`. -/
inductive Recording.Action where
  | run (a : Logging.Action) (event : LogEvent)
  | readFormatter (name : String)
  | readAppender (ap : AppenderId)
  | openFile (ap : AppenderId)
  | format (ap : AppenderId) (level : LogLevel) (event : LogEvent)
  | write (ap : AppenderId) (text : String)
  | testStream (ap : AppenderId)
  | print (text : String)

/-! ### Changes of a logger -/

namespace LoggerManager

variable {β : Type*} (s : LoggerManager)

/-- A change of another logger. -/
theorem map_modify_of_ne {name name' : String} (hne : name ≠ name') (f : Logger → Logger)
    (g : Logger → β) :
  ((s.modify name' f).mLoggers name).map g = (s.mLoggers name).map g
  := by
  unfold modify
  split
  case h_1 => rfl
  case h_2 => rw [set_of_ne s hne]

/-- A change that keeps a member. -/
theorem map_modify (name name' : String) {f : Logger → Logger} {g : Logger → β}
    (hf : ∀ l, g (f l) = g l) :
  ((s.modify name' f).mLoggers name).map g = (s.mLoggers name).map g
  := by
  by_cases hname : name = name'
  · subst hname
    unfold modify
    split
    case h_1 => rfl
    case h_2 l hl => simp [hl, hf]
  · apply map_modify_of_ne s hname

@[simp]
theorem modify_heap (name : String) (f : Logger → Logger) :
  (s.modify name f).heap = s.heap
  := by
  unfold modify
  split <;> rfl

@[simp]
theorem modify_next (name : String) (f : Logger → Logger) :
  (s.modify name f).next = s.next
  := by
  unfold modify
  split <;> rfl

end LoggerManager

namespace Recording

/-! ### The code -/

/-- What an action does in a section that `Logging.expand` leaves empty. -/
def body (event : LogEvent) : Logging.Action → List Action
  | .getFormatter name => [.readFormatter name]
  | .getAppenderFormatter ap | .appenderToYamlString ap => [.readAppender ap]
  | .reopen ap => [.openFile ap]
  | .appenderLog ap level => [.format ap level event]
  | _ => []

/-- The code of an action, with the section filled in. -/
def fill (event : LogEvent) (bs : List Action) :
    Instr LockId Logging.Action → List (Instr LockId Action)
  | .lock m => .lock m :: bs.map .act
  | .unlock m => [.unlock m]
  | .act a => [.act (.run a event)]

/-- The code that writes texts to the stream of a file. -/
def writing (ap : AppenderId) (texts : List String) : List (Instr LockId Action) :=
  texts.map fun text => .act (.write ap text)

/-- The code that inserts texts into `std::cout`. -/
def printing (texts : List String) : List (Instr LockId Action) :=
  texts.map fun text => .act (.print text)

/-- What `Logger::set_formatter` inserts into `std::cout` for a pattern: the messages of the
constructor of `LogFormatter`, and its own. `m_name` is the key of the logger. -/
def messages : Logging.Action → List String
  | .run (.setPattern name val) =>
      LogFormatter.prints val ++
        if (LogFormatter.new val).mError then
          ["Logger setFormatter name=", name, " value=", val, " invalid formatter", "\n"]
        else []
  | _ => []

/-- A file appender with its stream. -/
def fileAppender (s : Recording) (ap : AppenderId) : FileLogAppender where
  mLevel := (s.logging.manager.heap ap).mLevel
  mFileStream := s.files ap
  mLastTime := s.logging.mLastTime ap

/-- The stream of a file behind an operation. -/
def withFile (s : Recording) (ap : AppenderId) (op : StreamOp) (file : OfStream) : Recording :=
  { s with
    files := Function.update s.files ap file
    streams := Function.update s.streams ap (s.streams ap ++ [(op, file.good)]) }

/-- `m_formatter->format` of a formatter that is not null: the items are written one by one to
the stream of a file, and an error is reported; `StdoutLogAppender::log` inserts the whole text
into `std::cout`. -/
def formatting (strftime : Strftime) (ap : AppenderId) (kind : LogAppender.Kind)
    (f : LogFormatter) (level : LogLevel) (event : LogEvent) : List (Instr LockId Action) :=
  match kind with
  | .stdout => printing [f.format strftime level event]
  | .file _ =>
      writing ap (f.mItems.map (FormatItem.format strftime level event)) ++
        [.act (.testStream ap)]

/-- The effect of an action and the code that it leads to. The process crashes, and the action
is not over, if `m_formatter` is null. -/
def expand (strftime : Strftime) : Locks.Actions LockId Recording Action Environment
  | .run a event, env, s =>
      let r := Logging.expand a env.now s.logging
      ({ s with logging := r.1 },
        printing (messages a) ++ r.2.flatMap (fill event (body event a)))
  | .readFormatter _, _, s => (s, [])
  | .readAppender _, _, s => (s, [])
  | .openFile ap, env, s =>
      (s.withFile ap .reopen
        ((s.fileAppender ap).reopen env.opens env.closes).1.mFileStream, [])
  | .format ap level event, _, s =>
      let a := s.logging.manager.heap ap
      match a.mFormatter with
      | none => ({ s with crashed := true }, [.act (.format ap level event)])
      | some f => (s, formatting strftime ap a.kind f level event)
  | .write ap text, env, s =>
      (s.withFile ap (.write text) ((s.files ap).write env.writes), [])
  | .testStream ap, _, s =>
      (s, if (s.files ap).good then [] else printing ["error", "\n"])
  | .print text, _, s => ({ s with cout := s.cout ++ [text] }, [])

/-- The operations that a program may call: those of the logging interface, `log` of an
appender, and `reopen` of a file appender. -/
def callable : Action → Recording → Bool
  | .run (.appenderLog ap _) _, s => ap < s.logging.manager.next
  | .run (.reopen ap) _, s =>
      ap < s.logging.manager.next && (s.logging.manager.heap ap).kind != .stdout
  | .run a _, s => Logging.callable a s.logging
  | _, _ => false

/-- Before the first operation. -/
def new : Recording where
  logging := .new
  files _ := .new
  streams _ := []
  cout := []
  crashed := false

/-- The threads that use the logging interface, as if a crash stopped only one of them. -/
def threads (strftime : Strftime) :
    Transition.System (Locks.Threads LockId Recording Action) (Locks.Label Action Environment) :=
  Locks.system (· = new) callable (expand strftime)

/-- The threads that use the logging interface. A crash stops all of them. -/
def system (strftime : Strftime) :
    Transition.System (Locks.Threads LockId Recording Action) (Locks.Label Action Environment) :=
  (threads strftime).halting fun s => s.shared.crashed

/-! ### Observations -/

/-- What is observed: the appenders to which a record is given, and what they do with it, and
that a file is closed and opened. -/
inductive Observation where
  | dispatched (level : LogLevel) (event : LogEvent) (aps : List AppenderId)
  | skipped (ap : AppenderId) (level : LogLevel) (event : LogEvent)
  | began (ap : AppenderId) (kind : LogAppender.Kind) (f : LogFormatter) (level : LogLevel)
      (event : LogEvent)
  | reopened (ap : AppenderId)

/-- The appenders of a logger. -/
def appenders (s : Recording) (name : String) : List AppenderId :=
  ((s.logging.manager.mLoggers name).map fun l => l.mAppenders).getD []

/-- What is observed when an action is executed. -/
def observe (s : Recording) : Action → List Observation
  | .run (.dispatch name level) event => [.dispatched level event (s.appenders name)]
  | .run (.appenderLog ap level) event =>
      if (s.logging.manager.heap ap).mLevel.toNat ≤ level.toNat then []
      else [.skipped ap level event]
  | .format ap level event =>
      let a := s.logging.manager.heap ap
      match a.mFormatter with
      | none => []
      | some f => [.began ap a.kind f level event]
  | .openFile ap => [.reopened ap]
  | _ => []

/-- What is observed when a program calls an operation: it may give a record to an appender
itself. -/
def observeCall : Action → List Observation
  | .run (.appenderLog ap level) event => [.dispatched level event [ap]]
  | _ => []

/-- What is observed of a step, and of which thread. -/
def emit : Locks.Label Action Environment → Locks.Threads LockId Recording Action →
    List (ℕ × Observation)
  | .call t b, _ => (observeCall b).map (t, ·)
  | .next t _, s =>
      match s.code t with
      | .act b :: _ => (observe s.shared b).map (t, ·)
      | _ => []

/-- The threads with the observations of what they have done. -/
def observed (strftime : Strftime) :
    Transition.System (Transition.System.Observed (Locks.Threads LockId Recording Action)
      (ℕ × Observation)) (Locks.Label Action Environment) :=
  (system strftime).observed emit

/-- What is done to the stream of a file appender according to an observation: the file is
closed and opened, or a record is written with the formatter that the appender has when it
begins. -/
def Observation.ops (strftime : Strftime) (ap : AppenderId) :
    Observation → List StreamOp
  | .began ap' (.file _) f level event =>
      if ap' = ap then (f.mItems.map (FormatItem.format strftime level event)).map .write else []
  | .reopened ap' => if ap' = ap then [.reopen] else []
  | _ => []

/-! ### The order of the locks -/

/-- The place below which an action takes no lock. -/
def floor : Action → ℕ
  | .run a _ => Logging.floor a
  | _ => 4

/-- The locks that an action takes over from its caller. -/
def entry : Action → Set LockId
  | .run a _ => Logging.entry a
  | _ => ∅

/-- The locks that an action on loggers and appenders needs. An operation that has sections of
its own is no access; it would need all locks. -/
def needsRun : Logging.Action → Set LockId
  | .apply (.getLogger _) | .eachLogger _ => {.manager}
  | .apply (.delAppender name _) | .apply (.clearAppender name) => {.logger name}
  | .apply (.setAppenderFormatter ap _) => {.appender ap}
  | .apply (.addAppender _ _) | .apply (.setFormatter _ _) | .apply (.setPattern _ _) => Set.univ
  | .dispatch name _ | .eachLog name _ _ | .eachFollow name _ | .eachToYamlString name _
  | .pushBack name _ | .storeFormatter name _ => {.logger name}
  | .testFormatter name ap | .copyFormatter name ap | .follow name ap =>
      {.appender ap, .logger name}
  | _ => ∅

/-- The locks that an action needs. -/
def needs : Action → Set LockId
  | .run a _ => needsRun a
  | .readFormatter name => {.logger name}
  | .readAppender ap | .openFile ap | .format ap _ _ | .write ap _ | .testStream ap =>
      {.appender ap}
  | .print _ => ∅

/-- The accesses inside the sections. -/
def Leaf : Action → Prop
  | .run _ _ => False
  | _ => True

theorem Leaf.entry {b : Action} (h : Leaf b) :
  entry b = ∅
  := by
  cases b with
  | run => cases h
  | _ => rfl

theorem Leaf.floor {b : Action} (h : Leaf b) :
  floor b = 4
  := by
  cases b with
  | run => cases h
  | _ => rfl

/-- The sections are filled with accesses. -/
theorem leaf_body (event : LogEvent) (a : Logging.Action) :
  ∀ b ∈ body event a, Leaf b
  := by
  cases a <;> simp [body, Leaf]

theorem writing_eq (ap : AppenderId) (texts : List String) :
  writing ap texts = (texts.map (Action.write ap)).map .act
  := by
  simp [writing]

theorem printing_eq (texts : List String) :
  printing texts = (texts.map Action.print).map .act
  := by
  simp [printing]

/-- An action is an access, or one on loggers and appenders. -/
theorem leaf_or_run (b : Action) :
  Leaf b ∨ ∃ a event, b = .run a event
  := by
  cases b with
  | run a event => exact .inr ⟨a, event, rfl⟩
  | _ => exact .inl trivial

/-- What a formatter leads to are accesses, which need the lock of the appender only. -/
theorem leaf_formatting (strftime : Strftime) (ap : AppenderId) (kind : LogAppender.Kind)
    (f : LogFormatter) (level : LogLevel) (event : LogEvent) :
  ∃ bs : List Action, formatting strftime ap kind f level event = bs.map .act ∧
    ∀ b ∈ bs, Leaf b ∧ needs b ⊆ {.appender ap}
  := by
  cases kind with
  | stdout => exact ⟨[.print (f.format strftime level event)], rfl, by simp [Leaf, needs]⟩
  | file name =>
      let texts := f.mItems.map (FormatItem.format strftime level event)
      use texts.map (Action.write ap) ++ [.testStream ap]
      constructor
      · rw [List.map_append, formatting, writing_eq]
        rfl
      · intro b hb
        rcases List.mem_append.mp hb with hb | hb
        · obtain ⟨text, -, rfl⟩ := List.mem_map.mp hb
          exact ⟨trivial, subset_rfl⟩
        · obtain rfl := List.mem_singleton.mp hb
          exact ⟨trivial, subset_rfl⟩

/-- Accesses to streams lead to accesses, which need no other locks. -/
theorem leaf_expand (strftime : Strftime) {b : Action} (hb : Leaf b) (env : Environment)
    (s : Recording) :
  ∃ bs : List Action, (expand strftime b env s).2 = bs.map .act ∧
    ∀ b' ∈ bs, Leaf b' ∧ needs b' ⊆ needs b
  := by
  cases b with
  | run => cases hb
  | format ap level event =>
      simp only [expand]
      split
      case h_1 => exact ⟨[.format ap level event], rfl, by simp [Leaf]⟩
      case h_2 f _ => apply leaf_formatting
  | testStream ap =>
      simp only [expand]
      split
      case isTrue => exact ⟨[], rfl, by simp⟩
      case isFalse => exact ⟨[.print "error", .print "\n"], rfl, by simp [Leaf, needs]⟩
  | _ =>
      use []
      simp [expand]

/-- Accesses to streams change no loggers and appenders. -/
theorem logging_expand (strftime : Strftime) {b : Action} (hb : Leaf b) (env : Environment)
    (s : Recording) :
  (expand strftime b env s).1.logging = s.logging
  := by
  cases b with
  | run => cases hb
  | format ap level event =>
      simp only [expand]
      split <;> rfl
  | _ => rfl

theorem rank_lt_four (m : LockId) :
  Logging.rank m < 4
  := by
  cases m <;> simp

/-- Accesses come last in the order. -/
theorem floor_le_four (a : Logging.Action) :
  Logging.floor a ≤ 4
  := by
  cases a with
  | log name level => exact (rank_lt_four (.logger name)).le
  | dispatch name level => exact rank_lt_four (.logger name)
  | _ => simp [Logging.floor]

variable {held : Set LockId} {bs : List Action}

/-- Accesses in front of code that respects the order. -/
theorem ordered_leaves (hbs : ∀ b ∈ bs, Leaf b) {is : List (Instr LockId Action)}
    (h : Locks.Ordered Logging.rank floor entry held is) :
  Locks.Ordered Logging.rank floor entry held (bs.map .act ++ is)
  := by
  induction bs with
  | nil => apply h
  | cons b bs ih =>
      have hb : Leaf b := hbs b List.mem_cons_self
      have ih := ih fun b' hb' => hbs b' (List.mem_cons_of_mem b hb')
      simp only [List.map_cons, List.cons_append, Locks.Ordered, hb.entry, hb.floor]
      simp [rank_lt_four, ih]

/-- Accesses inside the sections respect the order. -/
theorem ordered_fill (event : LogEvent) (hbs : ∀ b ∈ bs, Leaf b)
    {is : List (Instr LockId Logging.Action)}
    (h : Locks.Ordered Logging.rank Logging.floor Logging.entry held is) :
  Locks.Ordered Logging.rank floor entry held (is.flatMap (fill event bs))
  := by
  induction is generalizing held with
  | nil => apply h
  | cons i is ih =>
      rw [List.flatMap_cons]
      cases i with
      | lock m => exact ⟨h.1, ordered_leaves hbs (ih h.2)⟩
      | unlock m => exact ⟨h.1, ih h.2⟩
      | act a => exact ⟨h.1, h.2.1, ih h.2.2⟩

/-- The same for the floor of an action. -/
theorem above_fill (event : LogEvent) (hbs : ∀ b ∈ bs, Leaf b) {f : ℕ} (hf : f ≤ 4)
    {is : List (Instr LockId Logging.Action)}
    (h : Locks.Above Logging.rank Logging.floor f is) :
  Locks.Above Logging.rank floor f (is.flatMap (fill event bs))
  := by
  constructor
  · intro m hm
    obtain ⟨i, hi, hm⟩ := List.mem_flatMap.mp hm
    cases i with
    | lock m' =>
        have hm' : m = m' := by simpa [fill] using hm
        rw [hm']
        apply h.1 m' hi
    | unlock m' => simp [fill] at hm
    | act a => simp [fill] at hm
  · intro b hb
    obtain ⟨i, hi, hb⟩ := List.mem_flatMap.mp hb
    cases i with
    | lock m =>
        have hb : b ∈ bs := by simpa [fill] using hb
        rw [(hbs b hb).floor]
        apply hf
    | unlock m => simp [fill] at hb
    | act a =>
        have hb : b = .run a event := by simpa [fill] using hb
        rw [hb]
        apply h.2 a hi

/-- Accesses in front of code that takes no lock below `f`. -/
theorem above_leaves (hbs : ∀ b ∈ bs, Leaf b) {f : ℕ} (hf : f ≤ 4)
    {is : List (Instr LockId Action)} (h : Locks.Above Logging.rank floor f is) :
  Locks.Above Logging.rank floor f (bs.map .act ++ is)
  := by
  constructor
  · intro m hm
    rcases List.mem_append.mp hm with hm | hm
    · simp at hm
    · apply h.1 m hm
  · intro b hb
    rcases List.mem_append.mp hb with hb | hb
    · have hmem : b ∈ bs := by simpa using hb
      rw [(hbs b hmem).floor]
      apply hf
    · apply h.2 b hb

/-- Messages are accesses. -/
theorem leaf_messages (a : Logging.Action) :
  ∀ b ∈ (messages a).map Action.print, Leaf b
  := by
  intro b hb
  obtain ⟨text, -, rfl⟩ := List.mem_map.mp hb
  trivial

variable (strftime : Strftime)

/-- The code of every action respects the order of the locks. -/
theorem disciplined :
  Locks.Disciplined Logging.rank floor entry (fun s : Recording => s.logging.manager.Links)
    (expand strftime)
  where
  keeps b env s h := by
    obtain hb | ⟨a, event, rfl⟩ := leaf_or_run b
    · rw [logging_expand strftime hb]
      apply h
    · apply Logging.links_expand a env.now h
  ordered b env s _ := by
    obtain hb | ⟨a, event, rfl⟩ := leaf_or_run b
    · obtain ⟨bs, heq, hbs⟩ := leaf_expand strftime hb env s
      rw [heq, hb.entry, ← List.append_nil (bs.map _)]
      exact ordered_leaves (fun b hb => (hbs b hb).1) rfl
    · simp only [expand, printing_eq]
      apply ordered_leaves (leaf_messages a)
      exact ordered_fill event (leaf_body event a) (Logging.ordered_expand a env.now s.logging)
  above b env s h := by
    obtain hb | ⟨a, event, rfl⟩ := leaf_or_run b
    · obtain ⟨bs, heq, hbs⟩ := leaf_expand strftime hb env s
      rw [heq, hb.floor, ← List.append_nil (bs.map _)]
      exact above_leaves (fun b hb => (hbs b hb).1) le_rfl ⟨by simp, by simp⟩
    · simp only [expand, printing_eq]
      apply above_leaves (leaf_messages a) (floor_le_four a)
      exact above_fill event (leaf_body event a) (floor_le_four a)
        (Logging.above_expand a env.now h)

/-- An operation begins without locks. -/
theorem start_of_callable (b : Action) (s : Recording) (h : callable b s = true) :
  entry b = ∅ ∧ needs b = ∅
  := by
  cases b with
  | run a event => cases a <;> first | exact ⟨rfl, rfl⟩ | simp [callable, Logging.callable] at h
  | _ => simp [callable] at h

/-! ### Whoever acts holds what the action needs -/

/-- Accesses in front of code that holds what its actions need. -/
theorem guarded_leaves {held : Set LockId} {bs : List Action}
    (hbs : ∀ b ∈ bs, Leaf b ∧ needs b ⊆ held) {is : List (Instr LockId Action)}
    (h : Locks.Guarded Set.univ needs entry held is) :
  Locks.Guarded Set.univ needs entry held (bs.map .act ++ is)
  := by
  induction bs with
  | nil => apply h
  | cons b bs ih =>
      obtain ⟨⟨hleaf, hneeds⟩, hbs⟩ := List.forall_mem_cons.mp hbs
      use hneeds
      rw [hleaf.entry, Set.sdiff_empty]
      apply ih hbs

/-- An action on loggers and appenders leads to code that holds what its actions need. -/
theorem guarded_run (a : Logging.Action) (event : LogEvent) (now : ℕ) (s : Logging) :
  Locks.Guarded Set.univ needs entry (needs (.run a event) ∪ entry (.run a event))
    ((Logging.expand a now s).2.flatMap (fill event (body event a)))
  := by
  cases a with
  | run op =>
      cases op with
      | newAppender kind =>
          cases kind <;>
            simp [Locks.Guarded, Logging.expand, Logging.run, fill, needs, needsRun]
      | setPattern name val =>
          simp only [Logging.expand, Logging.run]
          split <;> simp [Locks.Guarded, fill, needs, needsRun]
      | _ =>
          simp [Locks.Guarded, Logging.expand, Logging.run, Logging.guarded, fill, body,
            needs, needsRun, entry, Logging.entry]
  | log name level =>
      simp only [Logging.expand]
      split
      · trivial
      · split <;> simp [Locks.Guarded, Logging.guarded, fill, body, needs, needsRun]
  | dispatch name level =>
      simp only [Logging.expand]
      split
      · trivial
      · split
        · split <;> simp [Locks.Guarded, fill, body, needs, needsRun]
        · simp [Locks.Guarded, fill, needs, needsRun]
  | testFormatter name ap =>
      simp only [Logging.expand]
      split <;>
        simp [Locks.Guarded, Logging.guarded, fill, body, needs, needsRun, entry, Logging.entry]
  | appenderLog ap level =>
      simp only [Logging.expand, Logging.appenderLog]
      split
      · split
        · simp [Locks.Guarded, Logging.guarded, fill, body, needs]
        · split <;>
            simp [Locks.Guarded, Logging.guarded, fill, body, needs, needsRun, entry,
              Logging.entry]
      · trivial
  | eachLogger | eachLog | eachFollow | eachToYamlString =>
      simp only [Logging.expand]
      split <;>
        simp [Locks.Guarded, Logging.guarded, fill, body, needs, needsRun, entry, Logging.entry]
  | _ =>
      simp [Locks.Guarded, Logging.expand, Logging.guarded, fill, body, needs, needsRun]

/-- The code of every action holds what its actions need. -/
theorem protects :
  Locks.Protects needs entry Set.univ needs (expand strftime)
  := by
  intro b env s
  obtain hb | ⟨a, event, rfl⟩ := leaf_or_run b
  · obtain ⟨bs, heq, hbs⟩ := leaf_expand strftime hb env s
    rw [heq, ← List.append_nil (bs.map _)]
    refine guarded_leaves (fun b hb => ⟨(hbs b hb).1, ?_⟩) trivial
    exact (hbs b hb).2.trans Set.subset_union_left
  · simp only [expand, printing_eq]
    refine guarded_leaves (fun b hb => ⟨leaf_messages a b hb, ?_⟩)
      (guarded_run a event env.now s.logging)
    obtain ⟨text, -, rfl⟩ := List.mem_map.mp hb
    apply Set.empty_subset

/-- The threads respect the order of the locks and hold what their actions need. -/
abbrev Covered (s : Locks.Threads LockId Recording Action) : Prop :=
  Locks.Covered Logging.rank floor needs entry (fun s => s.logging.manager.Links) s

variable {strftime} in
/-- In every reachable state. -/
theorem reachable_covered {s : Locks.Threads LockId Recording Action}
    (h : (system strftime).Reachable s) :
  Covered s
  := by
  apply Locks.reachable_covered (disciplined strftime) (protects strftime) start_of_callable _
    h.of_halting
  rintro _ rfl
  apply LoggerManager.links_new

/-! ### Whole records -/

/-- What the code is about to write to the stream of an appender. -/
def upcoming (ap : AppenderId) : List (Instr LockId Action) → List StreamOp
  | .act (.write ap' text) :: is => if ap' = ap then .write text :: upcoming ap is else []
  | _ => []

/-- What is missing in the stream of an appender: what the thread that holds its lock is about
to write. -/
def missing (s : Locks.Threads LockId Recording Action) (ap : AppenderId) : List StreamOp :=
  match s.owner (.appender ap) with
  | none => []
  | some t => upcoming ap (s.code t)

/-- Code that does not write. -/
def Silent (is : List (Instr LockId Action)) : Prop :=
  ∀ ap text, .act (.write ap text) ∉ is

/-- Code that writes only at its beginning, to one stream. -/
def Fronted (is : List (Instr LockId Action)) : Prop :=
  ∃ ap texts rest, is = writing ap texts ++ rest ∧ Silent rest

theorem Silent.fronted {is : List (Instr LockId Action)} (h : Silent is) :
  Fronted is
  := ⟨0, [], is, rfl, h⟩

/-- Code that does not write is about to write nothing. -/
theorem Silent.upcoming {is : List (Instr LockId Action)} (h : Silent is) (ap : AppenderId) :
  upcoming ap is = []
  := by
  unfold Recording.upcoming
  split
  case h_1 ap' text is => exact absurd List.mem_cons_self (h ap' text)
  case h_2 => rfl

theorem Silent.append {is js : List (Instr LockId Action)} (h : Silent is) (h' : Silent js) :
  Silent (is ++ js)
  := by
  intro ap text hmem
  rcases List.mem_append.mp hmem with hmem | hmem
  · apply h ap text hmem
  · apply h' ap text hmem

theorem Silent.tail {i : Instr LockId Action} {is : List (Instr LockId Action)}
    (h : Silent (i :: is)) :
  Silent is
  := fun ap text hmem => h ap text (List.mem_cons_of_mem i hmem)

/-- What comes behind an instruction that does not write does not write either. -/
theorem Fronted.silent_tail {i : Instr LockId Action} {is : List (Instr LockId Action)}
    (h : Fronted (i :: is)) (hi : ∀ ap text, i ≠ .act (.write ap text)) :
  Silent is
  := by
  obtain ⟨ap, texts, rest, heq, hrest⟩ := h
  cases texts with
  | nil =>
      obtain rfl : i :: is = rest := heq
      apply hrest.tail
  | cons text texts => exact absurd (List.cons.inj heq).1 (hi ap text)

/-- Code that writes texts is about to do so. -/
theorem upcoming_writing (ap : AppenderId) (texts : List String)
    {rest : List (Instr LockId Action)} (h : Silent rest) :
  upcoming ap (writing ap texts ++ rest) = texts.map .write
  := by
  induction texts with
  | nil => apply h.upcoming
  | cons text texts ih =>
      change upcoming ap (.act (.write ap text) :: (writing ap texts ++ rest)) = _
      rw [upcoming, if_pos rfl, ih, List.map_cons]

/-- It writes them to one stream only. -/
theorem upcoming_writing_of_ne {ap ap' : AppenderId} (hne : ap' ≠ ap) (texts : List String)
    {rest : List (Instr LockId Action)} (h : Silent rest) :
  upcoming ap (writing ap' texts ++ rest) = []
  := by
  cases texts with
  | nil => apply h.upcoming
  | cons text texts => exact if_neg hne

theorem silent_printing (texts : List String) :
  Silent (printing texts)
  := by
  simp [Silent, printing]

/-- The sections write nothing before a formatter is read. -/
theorem silent_fill (a : Logging.Action) (event : LogEvent)
    (is : List (Instr LockId Logging.Action)) :
  Silent (is.flatMap (fill event (body event a)))
  := by
  intro ap text hmem
  obtain ⟨i, -, hi⟩ := List.mem_flatMap.mp hmem
  cases i with
  | lock m =>
      have hbody : Action.write ap text ∈ body event a := by simpa [fill] using hi
      cases a <;> simp [body] at hbody
  | unlock m => simp [fill] at hi
  | act a' => simp [fill] at hi

/-- Only a formatter leads to writes. -/
theorem silent_expand {b : Action} (hb : ∀ ap level event, b ≠ .format ap level event)
    (env : Environment) (s : Recording) :
  Silent (expand strftime b env s).2
  := by
  cases b with
  | run a event => exact (silent_printing _).append (silent_fill a event _)
  | format ap level event => exact absurd rfl (hb ap level event)
  | testStream ap =>
      simp only [expand]
      split
      · simp [Silent]
      · apply silent_printing
  | _ => simp [Silent, expand]

/-- What has been done to the stream of an appender. -/
def calls (s : Recording) (ap : AppenderId) : List StreamOp :=
  (s.streams ap).map Prod.fst

@[simp]
theorem calls_withFile (s : Recording) (ap : AppenderId) (op : StreamOp) (file : OfStream) :
  (s.withFile ap op file).calls ap = s.calls ap ++ [op]
  := by
  simp [calls, withFile]

theorem calls_withFile_of_ne (s : Recording) {ap ap' : AppenderId} (hne : ap' ≠ ap)
    (op : StreamOp) (file : OfStream) :
  (s.withFile ap op file).calls ap' = s.calls ap'
  := by
  simp [calls, withFile, hne]

/-- The text that the stream of an appender has accepted. -/
def accepted (s : Recording) (ap : AppenderId) : String :=
  String.join (((s.streams ap).filter Prod.snd).map fun op => op.1.text)

/-- A stream that has never failed has accepted all that was written. -/
theorem accepted_of_good {s : Recording} {ap : AppenderId}
    (h : ∀ op ∈ s.streams ap, op.2 = true) :
  s.accepted ap = String.join ((s.calls ap).map StreamOp.text)
  := by
  rw [accepted, calls, List.filter_eq_self.mpr h, List.map_map]
  rfl

/-- The code of every thread writes only at its beginning, and `whole` is what has been done to
the streams together with what is missing. -/
structure Whole (whole : AppenderId → List StreamOp) (s : Locks.Threads LockId Recording Action) :
    Prop where
  fronted : ∀ t, Fronted (s.code t)
  streams : ∀ ap, s.shared.calls ap ++ missing s ap = whole ap

variable {s : Locks.Threads LockId Recording Action}

/-- What is missing is up to the thread that holds the lock. -/
theorem missing_of_owner {ap : AppenderId} {t : ℕ} (h : s.owner (.appender ap) = some t) :
  missing s ap = upcoming ap (s.code t)
  := by
  rw [missing, h]

/-- Nothing is missing while the lock is free. -/
theorem missing_of_free {ap : AppenderId} (h : s.owner (.appender ap) = none) :
  missing s ap = []
  := by
  rw [missing, h]

/-- Nothing is missing if the thread that holds the lock does not write next. -/
theorem missing_of_silent {ap : AppenderId}
    (h : ∀ t, s.owner (.appender ap) = some t → Silent (s.code t)) :
  missing s ap = []
  := by
  unfold missing
  split
  case h_1 => rfl
  case h_2 t ht => apply (h t ht).upcoming

/-- Code that does not begin with a write is about to write nothing. -/
theorem upcoming_cons {i : Instr LockId Action} (hi : ∀ ap text, i ≠ .act (.write ap text))
    (ap : AppenderId) (is : List (Instr LockId Action)) :
  upcoming ap (i :: is) = []
  := by
  unfold upcoming
  split
  case h_1 ap' text is' heq => exact absurd (List.cons.inj heq).1 (hi ap' text)
  case h_2 => rfl

variable {strftime} {whole : AppenderId → List StreamOp}

/-- A step of a thread that does not write next and goes on with code that does not write: it
changes no stream. -/
theorem Whole.quiet (h : Whole whole s) {s' : Locks.Threads LockId Recording Action} {t : ℕ}
    (hstreams : s'.shared.calls = s.shared.calls)
    (hcode : ∀ u, u ≠ t → s'.code u = s.code u)
    (howner : ∀ m u, u ≠ t → (s'.owner m = some u ↔ s.owner m = some u))
    (hnow : ∀ ap, upcoming ap (s.code t) = []) (hthen : Silent (s'.code t)) :
  Whole whole s'
  := by
  have hmissing : ∀ ap, missing s' ap = missing s ap := by
    intro ap
    cases hs : s.owner (.appender ap) with
    | none =>
        rw [missing_of_free hs]
        apply missing_of_silent
        intro u hu
        by_cases hut : u = t
        · rw [hut]
          apply hthen
        · rw [howner _ u hut, hs] at hu
          cases hu
    | some u =>
        by_cases hut : u = t
        · rw [missing_of_owner hs, hut, hnow]
          apply missing_of_silent
          intro v hv
          by_cases hvt : v = t
          · rw [hvt]
            apply hthen
          · rw [howner _ v hvt, hs] at hv
            exact absurd ((Option.some.inj hv).symm.trans hut) hvt
        · rw [missing_of_owner hs, missing_of_owner ((howner _ u hut).mpr hs), hcode u hut]
  constructor
  case fronted =>
    intro u
    by_cases hut : u = t
    · rw [hut]
      apply hthen.fronted
    · rw [hcode u hut]
      apply h.fronted u
  case streams =>
    intro ap
    rw [hstreams, hmissing]
    apply h.streams ap

/-- A thread that holds the lock of an appender acts on its stream and goes on with writing
what is then missing. -/
theorem Whole.act (h : Whole whole s) {s' : Locks.Threads LockId Recording Action} {t : ℕ}
    {ap : AppenderId} (hap : s.owner (.appender ap) = some t) (howner : s'.owner = s.owner)
    (hcode : ∀ u, u ≠ t → s'.code u = s.code u) (texts : List String)
    {rest : List (Instr LockId Action)} (hthen : s'.code t = writing ap texts ++ rest)
    (hrest : Silent rest) (hother : ∀ ap', ap' ≠ ap → upcoming ap' (s.code t) = [])
    (hstreams : ∀ ap', ap' ≠ ap → s'.shared.calls ap' = s.shared.calls ap')
    {whole' : AppenderId → List StreamOp} (hwhole : ∀ ap', ap' ≠ ap → whole' ap' = whole ap')
    (ops : List StreamOp) (hops : whole' ap = whole ap ++ ops)
    (hdone : s'.shared.calls ap ++ texts.map .write =
      s.shared.calls ap ++ upcoming ap (s.code t) ++ ops) :
  Whole whole' s'
  := by
  constructor
  case fronted =>
    intro u
    by_cases hut : u = t
    · rw [hut]
      exact ⟨ap, texts, rest, hthen, hrest⟩
    · rw [hcode u hut]
      apply h.fronted u
  case streams =>
    intro ap'
    by_cases heq : ap' = ap
    · subst heq
      have hstream := h.streams ap'
      rw [missing_of_owner hap] at hstream
      have hap' : s'.owner (.appender ap') = some t := by rw [howner, hap]
      rw [missing_of_owner hap', hthen, upcoming_writing ap' texts hrest, hdone, hstream, hops]
    · have hmissing : missing s' ap' = missing s ap' := by
        cases hs : s.owner (.appender ap') with
        | none =>
            rw [missing_of_free hs]
            apply missing_of_free
            rw [howner, hs]
        | some u =>
            have hs' : s'.owner (.appender ap') = some u := by rw [howner, hs]
            rw [missing_of_owner hs, missing_of_owner hs']
            by_cases hut : u = t
            · rw [hut, hthen, hother ap' heq, upcoming_writing_of_ne (Ne.symm heq) texts hrest]
            · rw [hcode u hut]
      rw [hstreams ap' heq, hmissing, h.streams ap', hwhole ap' heq]

/-- Behind a write come the other writes of the record. -/
theorem Fronted.write_tail {ap : AppenderId} {text : String} {is : List (Instr LockId Action)}
    (h : Fronted (.act (.write ap text) :: is)) :
  ∃ texts rest, is = writing ap texts ++ rest ∧ Silent rest
  := by
  obtain ⟨ap', texts, rest, heq, hrest⟩ := h
  cases texts with
  | nil =>
      obtain rfl : .act (.write ap text) :: is = rest := heq
      exact absurd List.mem_cons_self (hrest ap text)
  | cons text' texts =>
      obtain ⟨⟨rfl, rfl⟩, rfl⟩ := List.cons.inj heq
      exact ⟨texts, rest, rfl, hrest⟩

/-- What the observations of a step do to the stream of an appender. -/
def opsOf (strftime : Strftime) (ap : AppenderId) (os : List (ℕ × Observation)) :
    List StreamOp :=
  os.flatMap fun o => o.2.ops strftime ap

/-- The text of a record that a file appender begins. -/
def Observation.text (strftime : Strftime) (ap : AppenderId) : Observation → String
  | .began ap' (.file _) f level event =>
      if ap' = ap then f.format strftime level event else ""
  | _ => ""

/-- The items of a record, one behind the other, are its text. -/
theorem join_ops (strftime : Strftime) (ap : AppenderId) (o : Observation) :
  String.join ((o.ops strftime ap).map StreamOp.text) = o.text strftime ap
  := by
  cases o with
  | began ap' kind f level event =>
      cases kind with
      | stdout => simp [Observation.ops, Observation.text]
      | file name =>
          simp only [Observation.ops, Observation.text]
          split
          case isTrue =>
            rw [List.map_map, LogFormatter.format]
            congr 1
            apply List.map_id
          case isFalse => simp
  | reopened ap' =>
      simp only [Observation.ops, Observation.text]
      split <;> simp [StreamOp.text]
  | _ => simp [Observation.ops, Observation.text]

/-- The texts that are written for whole records. -/
theorem join_opsOf (strftime : Strftime) (ap : AppenderId) (os : List (ℕ × Observation)) :
  String.join ((opsOf strftime ap os).map StreamOp.text) =
    String.join (os.map fun o => o.2.text strftime ap)
  := by
  induction os with
  | nil => rfl
  | cons o os ih =>
      rw [opsOf, List.flatMap_cons, List.map_append, String.join_append, join_ops, List.map_cons,
        String.join_cons, ← ih]
      rfl

/-- An action that changes no stream and leads to code that does not write. -/
theorem Whole.quiet_act (h : Whole whole s) {t : ℕ} {b : Action}
    {is : List (Instr LockId Action)} (ht : s.code t = .act b :: is)
    (hwrite : ∀ ap text, b ≠ .write ap text) {env : Environment}
    (hsilent : Silent (expand strftime b env s.shared).2)
    (hstreams : (expand strftime b env s.shared).1.calls = s.shared.calls) :
  Whole whole { s with
    shared := (expand strftime b env s.shared).1
    code := Function.update s.code t ((expand strftime b env s.shared).2 ++ is) }
  := by
  have hfronted := h.fronted t
  rw [ht] at hfronted
  apply h.quiet (t := t) hstreams (fun u hu => Function.update_of_ne hu ..) fun _ _ _ => by rfl
  · intro ap
    rw [ht, upcoming_cons (by simpa using hwrite)]
  · dsimp only
    rw [Function.update_self]
    apply hsilent.append
    apply hfronted.silent_tail (by simpa using hwrite)

theorem emit_act {t : ℕ} {env : Environment} {b : Action} {is : List (Instr LockId Action)}
    (ht : s.code t = .act b :: is) :
  emit (.next t env) s = (observe s.shared b).map (t, ·)
  := by
  simp only [emit, ht]

/-- A record is begun. Only that of a file appender is written piece by piece. -/
theorem Whole.format (h : Whole whole s) {t : ℕ} {ap : AppenderId} {level : LogLevel}
    {event : LogEvent} {is : List (Instr LockId Action)}
    (ht : s.code t = .act (.format ap level event) :: is)
    (hap : s.owner (.appender ap) = some t) (env : Environment) :
  Whole
    (fun ap' => whole ap' ++
      opsOf strftime ap' ((observe s.shared (.format ap level event)).map (t, ·)))
    { s with
      shared := (expand strftime (.format ap level event) env s.shared).1
      code := Function.update s.code t
        ((expand strftime (.format ap level event) env s.shared).2 ++ is) }
  := by
  have hfronted := h.fronted t
  rw [ht] at hfronted
  cases hf : (s.shared.logging.manager.heap ap).mFormatter with
  | none =>
      have hobserve : observe s.shared (.format ap level event) = [] := by simp [observe, hf]
      simp only [hobserve, opsOf, List.map_nil, List.flatMap_nil, List.append_nil]
      apply h.quiet_act ht (by simp)
      · simp [Silent, expand, hf]
      · simp only [expand, hf]
        rfl
  | some f =>
      have hobserve : observe s.shared (.format ap level event) =
          [.began ap (s.shared.logging.manager.heap ap).kind f level event] := by
        simp [observe, hf]
      rw [hobserve]
      cases hkind : (s.shared.logging.manager.heap ap).kind with
      | stdout =>
          simp only [opsOf, List.map_singleton, List.flatMap_singleton, Observation.ops,
            List.append_nil]
          apply h.quiet_act ht (by simp)
          · simp only [expand, hf, hkind]
            apply silent_printing
          · simp only [expand, hf]
      | file name =>
          let texts := f.mItems.map (FormatItem.format strftime level event)
          have hexpand : expand strftime (.format ap level event) env s.shared =
              (s.shared, writing ap texts ++ [.act (.testStream ap)]) := by
            simp only [expand, hf, hkind]
            rfl
          have hthen : Function.update s.code t (writing ap texts ++ [.act (.testStream ap)] ++ is)
              t = writing ap texts ++ .act (.testStream ap) :: is := by
            rw [Function.update_self, List.append_assoc]
            rfl
          rw [hexpand]
          apply h.act hap (by rfl) (fun u hu => Function.update_of_ne hu ..) texts hthen
          case hrest =>
            have htail : Silent is := hfronted.silent_tail (by simp)
            intro ap' text hmem
            apply htail ap' text (by simpa using hmem)
          case hother =>
            intro ap' _
            rw [ht, upcoming_cons (by simp)]
          case hstreams => exact fun _ _ => rfl
          case hwhole =>
            intro ap' hap'
            simp [opsOf, Observation.ops, Ne.symm hap']
          case hops => rfl
          case hdone =>
            rw [ht, upcoming_cons (by simp)]
            simp [opsOf, Observation.ops, texts]

/-- A thread executes its next instruction. -/
theorem Whole.next (hcovered : Covered s) (h : Whole whole s)
    {s' : Locks.Threads LockId Recording Action} {t : ℕ} {env : Environment}
    (hnext : s.next (expand strftime) t env = some s') :
  Whole (fun ap => whole ap ++ opsOf strftime ap (emit (.next t env) s)) s'
  := by
  have hfronted := h.fronted t
  obtain ⟨m, is, ht, hfree, rfl⟩ | ⟨m, is, ht, rfl⟩ | ⟨b, is, ht, rfl⟩ :=
    Locks.Threads.next_cases hnext
  · rw [ht] at hfronted
    simp only [emit, ht, opsOf, List.flatMap_nil, List.append_nil]
    apply h.quiet (t := t) (by rfl) (fun u hu => Function.update_of_ne hu ..)
    · intro k u hu
      exact Set.ext_iff.mp (Locks.held_of_ne hu (.inr rfl) (.inl hfree)) k
    · intro ap
      rw [ht]
      apply upcoming_cons (by simp)
    · dsimp only
      rw [Function.update_self]
      apply hfronted.silent_tail (by simp)
  · have hordered := hcovered.safe.ordered t
    rw [ht] at hfronted hordered
    have hm : s.owner m = some t := hordered.1
    simp only [emit, ht, opsOf, List.flatMap_nil, List.append_nil]
    apply h.quiet (t := t) (by rfl) (fun u hu => Function.update_of_ne hu ..)
    · intro k u hu
      exact Set.ext_iff.mp (Locks.held_of_ne hu (.inl rfl) (.inr hm)) k
    · intro ap
      rw [ht]
      apply upcoming_cons (by simp)
    · dsimp only
      rw [Function.update_self]
      apply hfronted.silent_tail (by simp)
  · rw [ht] at hfronted
    have hneeds := hcovered.needs_subset ht
    rw [emit_act ht]
    cases b with
    | write ap text =>
        obtain ⟨texts, rest, rfl, hrest⟩ := hfronted.write_tail
        have hap : s.owner (.appender ap) = some t := hneeds rfl
        apply h.act hap (by rfl) (fun u hu => Function.update_of_ne hu ..) texts
        case ops => exact []
        case hrest => apply hrest
        case hthen => apply Function.update_self
        case hother =>
          intro ap' hap'
          rw [ht]
          apply upcoming_writing_of_ne (Ne.symm hap') (text :: texts) hrest
        case hstreams => exact fun ap' hap' => calls_withFile_of_ne _ hap' ..
        case hwhole => exact fun _ _ => List.append_nil _
        case hops => rfl
        case hdone =>
          rw [ht, upcoming, if_pos rfl, upcoming_writing ap texts hrest]
          simp [expand]
    | openFile ap =>
        have hap : s.owner (.appender ap) = some t := hneeds rfl
        apply h.act hap (by rfl) (fun u hu => Function.update_of_ne hu ..) []
        case hrest => apply hfronted.silent_tail (by simp)
        case hthen => apply Function.update_self
        case hother =>
          intro ap' _
          rw [ht, upcoming_cons (by simp)]
        case hstreams => exact fun ap' hap' => calls_withFile_of_ne _ hap' ..
        case hwhole =>
          intro ap' hap'
          simp [observe, opsOf, Observation.ops, Ne.symm hap']
        case hops => rfl
        case hdone =>
          rw [ht, upcoming_cons (by simp)]
          simp [expand, observe, opsOf, Observation.ops]
    | format ap level event => exact h.format ht (hneeds rfl) env
    | run a event =>
        have hobserve : ∀ ap,
            opsOf strftime ap ((observe s.shared (.run a event)).map (t, ·)) = [] := by
          intro ap
          cases a with
          | appenderLog ap' level =>
              simp only [observe]
              split <;> rfl
          | _ => rfl
        simp only [hobserve, List.append_nil]
        exact h.quiet_act ht (by simp) (silent_expand strftime (by simp) env _) (by rfl)
    | readFormatter | readAppender | testStream | print =>
        simp only [observe, List.map_nil, opsOf, List.flatMap_nil, List.append_nil]
        exact h.quiet_act ht (by simp) (silent_expand strftime (by simp) env _) (by rfl)

/-- In every reachable state. -/
theorem reachable_whole {s : Transition.System.Observed _ _}
    (h : (observed strftime).Reachable s) :
  Covered s.state ∧ Whole (fun ap => opsOf strftime ap s.history) s.state
  := by
  apply h.invariant
  · rintro s ⟨hs, hhistory⟩
    use reachable_covered (.init hs)
    obtain ⟨hnew, howner, hcode⟩ := hs
    constructor
    case fronted =>
      intro t
      rw [hcode t]
      exact ⟨0, [], [], rfl, nofun⟩
    case streams =>
      intro ap
      rw [missing_of_free (howner _), hnew, hhistory]
      rfl
  · rintro l s s' ⟨hcovered, hwhole⟩ - hstep
    obtain ⟨hstep, hhistory⟩ := Transition.System.observed_step.mp hstep
    obtain ⟨-, hstep⟩ := Transition.System.halting_step.mp hstep
    use hcovered.step (disciplined strftime) (protects strftime) start_of_callable hstep
    simp only [hhistory, opsOf, List.flatMap_append]
    obtain ⟨t, b, rfl, hcode, hb, heq⟩ | ⟨t, env, rfl, hnext⟩ := Locks.Threads.step_cases hstep
    · have hobserve : ∀ ap, opsOf strftime ap (emit (.call t b) s.state) = [] := by
        intro ap
        cases b with
        | run a event => cases a <;> rfl
        | _ => rfl
      simp only [opsOf] at hobserve
      simp only [hobserve, List.append_nil, heq]
      apply hwhole.quiet (t := t) (by rfl) (fun u hu => Function.update_of_ne hu ..)
        fun _ _ _ => by rfl
      · intro ap
        rw [hcode]
        rfl
      · intro ap text hmem
        dsimp only at hmem
        rw [Function.update_self] at hmem
        obtain rfl : .write ap text = b := by simpa using hmem
        cases hb
    · apply hwhole.next hcovered hnext

/-- Whatever the threads do, what is done to the stream of a file appender are whole records,
each with the formatter that the appender had when the record was begun, in the order in which
they were begun, and closing and opening the file. Only the record of the thread that holds the
lock of the appender may not be complete yet. If nothing has failed, the stream has accepted the
texts of these records, one behind the other. -/
theorem streams_whole {s : Transition.System.Observed _ _} (h : (observed strftime).Reachable s)
    (ap : AppenderId) :
  s.state.shared.calls ap ++ missing s.state ap = opsOf strftime ap s.history ∧
    (s.state.owner (.appender ap) = none →
      s.state.shared.calls ap = opsOf strftime ap s.history ∧
      ((∀ op ∈ s.state.shared.streams ap, op.2 = true) →
        s.state.shared.accepted ap =
          String.join (s.history.map fun o => o.2.text strftime ap)))
  := by
  have hstream := (reachable_whole h).2.streams ap
  use hstream
  intro hfree
  have hcalls : s.state.shared.calls ap = opsOf strftime ap s.history := by
    rw [← hstream, missing_of_free hfree, List.append_nil]
  use hcalls
  intro hgood
  rw [accepted_of_good hgood, hcalls, join_opsOf]

/-- Before the first operation of any thread. -/
def start : Transition.System.Observed (Locks.Threads LockId Recording Action) (ℕ × Observation)
    where
  state := { shared := new, owner := fun _ => none, code := fun _ => [] }
  history := []

theorem start_reachable :
  (observed strftime).Reachable start
  := .init ⟨⟨rfl, fun _ => rfl, fun _ => rfl⟩, rfl⟩

/-- A record with the given text. -/
def said (content : String) : LogEvent :=
  ⟨"root", "", 0, 0, 0, 0, 0, "", content⟩

/-- Everything works, and the time does not pass. -/
def calm : Environment where
  now := 0
  opens := true
  closes := true
  writes := true

/-- A thread constructs a file appender and gives it the formatter `%m%n`. It has written the
text of a record, but not yet the end of the line, when another thread has a record for the
same appender and waits for its lock. -/
def interrupted : List (Locks.Label Action Environment) :=
  [.call 1 (.run (.run (.newAppender (.file "log"))) (said "")), .next 1 calm, .next 1 calm,
    .next 1 calm, .next 1 calm, .next 1 calm,
    .call 1 (.run (.run (.setAppenderFormatter 1
      (some ⟨"%m%n", [.message, .newLine], false⟩))) (said "")),
    .next 1 calm, .next 1 calm, .next 1 calm, .next 1 calm,
    .call 1 (.run (.appenderLog 1 .info) (said "one")), .next 1 calm, .next 1 calm,
    .next 1 calm, .next 1 calm,
    .call 2 (.run (.appenderLog 1 .info) (said "two")), .next 2 calm]

theorem streams_whole_interrupted :
  (∃ s, (observed .epoch).exec interrupted start = some s ∧
    s.state.shared.calls 1 = [.reopen, .write "one"] ∧
    opsOf .epoch 1 s.history = [.reopen, .write "one", .write "\n"]) ∧
  ∃ s, (observed .epoch).exec (interrupted ++ [.next 1 calm, .next 1 calm, .next 1 calm]) start =
      some s ∧
    s.state.shared.accepted 1 = String.join (s.history.map fun o => o.2.text .epoch 1)
  := by
  constructor
  · obtain ⟨s, hs⟩ : ∃ s, (observed .epoch).exec interrupted start = some s :=
      Option.isSome_iff_exists.mp rfl
    have hview : ((observed .epoch).exec interrupted start).map (fun s =>
        (s.state.shared.calls 1, missing s.state 1)) =
      some ([.reopen, .write "one"], [.write "\n"]) := rfl
    rw [hs, Option.map_some, Option.some_inj, Prod.mk.injEq] at hview
    obtain ⟨hstream, hmissing⟩ := hview
    refine ⟨s, hs, hstream, ?_⟩
    have hreachable := Transition.System.Reachable.exec start_reachable interrupted hs
    rw [← (streams_whole hreachable 1).1, hstream, hmissing]
    rfl
  · obtain ⟨s, hs⟩ : ∃ s, (observed .epoch).exec
        (interrupted ++ [.next 1 calm, .next 1 calm, .next 1 calm]) start = some s :=
      Option.isSome_iff_exists.mp rfl
    have hview : ((observed .epoch).exec
        (interrupted ++ [.next 1 calm, .next 1 calm, .next 1 calm]) start).map (fun s =>
        (s.state.owner (.appender 1), s.state.shared.streams 1)) =
      some (none, [(.reopen, true), (.write "one", true), (.write "\n", true)]) := rfl
    rw [hs, Option.map_some, Option.some_inj, Prod.mk.injEq] at hview
    obtain ⟨hfree, hstreams⟩ := hview
    use s, hs
    have hreachable := Transition.System.Reachable.exec start_reachable _ hs
    apply ((streams_whole hreachable 1).2 hfree).2
    simp [hstreams]

/-! ### Progress -/

/-- As long as the process has not crashed and a thread has something left to do, some thread
can do it. -/
theorem progress {s : Locks.Threads LockId Recording Action} (h : (system strftime).Reachable s)
    (hcrashed : s.shared.crashed = false) {t : ℕ} (ht : s.code t ≠ []) (env : Environment) :
  ∃ u, s.code u ≠ [] ∧ ((system strftime).step (.next u env) s).isSome
  := by
  obtain ⟨u, hu, hnext⟩ :=
    (reachable_covered h).safe.exists_next (Locks.reachable_finite h.of_halting) ht env
  obtain ⟨s', hs'⟩ := Option.isSome_iff_exists.mp hnext
  use u, hu
  exact Option.isSome_iff_exists.mpr ⟨s', Transition.System.halting_step.mpr ⟨hcrashed, hs'⟩⟩

theorem progress_interrupted :
  ∃ s u, (observed .epoch).exec interrupted start = some s ∧
    Locks.WaitsFor s.state 2 1 ∧ ((system .epoch).step (.next u calm) s.state).isSome
  := by
  obtain ⟨s, hs⟩ : ∃ s, (observed .epoch).exec interrupted start = some s :=
    Option.isSome_iff_exists.mp rfl
  have hreachable := Transition.System.Reachable.exec start_reachable interrupted hs
  have hview : ((observed .epoch).exec interrupted start).map (fun s =>
      (s.state.code 2, s.state.owner (.appender 1), s.state.shared.crashed)) =
    some ([.lock (.appender 1), .act (.format 1 .info (said "two")), .unlock (.appender 1)],
      some 1, false) := rfl
  rw [hs, Option.map_some, Option.some_inj, Prod.mk.injEq, Prod.mk.injEq] at hview
  obtain ⟨hcode, howner, hcrashed⟩ := hview
  obtain ⟨u, -, hu⟩ := progress hreachable.of_observed hcrashed (t := 2) (by simp [hcode]) calm
  exact ⟨s, u, hs, ⟨_, _, hcode, howner⟩, hu⟩

end Recording

end WbServer
