import WbServer.Log.Format

/-!
# Loggers and appenders

Appenders are shared by pointers: `LoggerManager.heap` holds them, and a logger refers to
them by their index. The loggers of the manager are found by their name.

What an appender writes to (`m_file_stream`, `std::cout`) is left out, as are the locks.
-/

namespace WbServer

/-- A `LogAppender::ptr`. -/
abbrev AppenderId : Type := ℕ

/-- The subclasses of `LogAppender`. -/
inductive LogAppender.Kind where
  | file (mFileName : String)
  | stdout
  deriving DecidableEq

/-- `LogAppender`. -/
structure LogAppender where
  kind : LogAppender.Kind
  mLevel : LogLevel := .debug
  mFormatter : Option LogFormatter := none
  mHasFormatter : Bool := false
  deriving DecidableEq

/-- `LogAppender::set_formatter`. -/
def LogAppender.setFormatter (a : LogAppender) (val : Option LogFormatter) : LogAppender :=
  { a with mFormatter := val, mHasFormatter := val.isSome }

/-- The formatter an appender takes over from its logger in `Logger::add_appender`. -/
def LogAppender.inherit (a : LogAppender) (formatter : LogFormatter) : LogAppender :=
  match a.mFormatter with
  | none => { a with mFormatter := some formatter }
  | some _ => a

/-- The new formatter of the logger, given to an appender in `Logger::set_formatter`. -/
def LogAppender.follow (a : LogAppender) (formatter : LogFormatter) : LogAppender :=
  if a.mHasFormatter then a else { a with mFormatter := some formatter }

/-- `Logger`. -/
structure Logger where
  mName : String
  mLevel : LogLevel
  mAppenders : List AppenderId
  mFormatter : LogFormatter
  mRoot : Option String

/-- The pattern of a new logger. -/
def Logger.defaultPattern : String :=
  "%d{%Y-%m-%d %H:%M:%S}%T%t%T%N%T%F%T[%p]%T[%c]%T<%f:%l>%T%m %n"

/-- The constructor of `Logger`. -/
def Logger.new (name : String) : Logger where
  mName := name
  mLevel := .debug
  mAppenders := []
  mFormatter := LogFormatter.new Logger.defaultPattern
  mRoot := none

/-- The appenders and the loggers of `LoggerManager`. -/
structure LoggerManager where
  heap : AppenderId → LogAppender
  next : AppenderId
  mLoggers : String → Option Logger

namespace LoggerManager

/-- Stores a logger. -/
def set (s : LoggerManager) (name : String) (l : Logger) : LoggerManager :=
  { s with mLoggers := Function.update s.mLoggers name (some l) }

/-- Changes a logger, if it exists. -/
def modify (s : LoggerManager) (name : String) (f : Logger → Logger) : LoggerManager :=
  match s.mLoggers name with
  | none => s
  | some l => s.set name (f l)

/-- `LoggerManager::get_logger`. -/
def getLogger (s : LoggerManager) (name : String) : LoggerManager :=
  match s.mLoggers name with
  | some _ => s
  | none => s.set name { Logger.new name with mRoot := some "root" }

/-- Constructs an appender at the index `s.next`. -/
def newAppender (s : LoggerManager) (a : LogAppender) : LoggerManager :=
  { s with heap := Function.update s.heap s.next a, next := s.next + 1 }

/-- `Logger::add_appender`. -/
def addAppender (s : LoggerManager) (name : String) (ap : AppenderId) : LoggerManager :=
  match s.mLoggers name with
  | none => s
  | some l =>
      { s with heap := Function.update s.heap ap ((s.heap ap).inherit l.mFormatter) }.set name
        { l with mAppenders := l.mAppenders ++ [ap] }

/-- `Logger::clear_appender`. -/
def clearAppender (s : LoggerManager) (name : String) : LoggerManager :=
  s.modify name fun l => { l with mAppenders := [] }

/-- `Logger::set_level`. -/
def setLevel (s : LoggerManager) (name : String) (val : LogLevel) : LoggerManager :=
  s.modify name fun l => { l with mLevel := val }

/-- The loop of `Logger::set_formatter` over the appenders. -/
def followAll (heap : AppenderId → LogAppender) (val : LogFormatter) :
    List AppenderId → AppenderId → LogAppender
  | [] => heap
  | ap :: aps => followAll (Function.update heap ap ((heap ap).follow val)) val aps

/-- `Logger::set_formatter` for a formatter. -/
def setFormatter (s : LoggerManager) (name : String) (val : LogFormatter) : LoggerManager :=
  match s.mLoggers name with
  | none => s
  | some l =>
      { s with heap := followAll s.heap val l.mAppenders }.set name { l with mFormatter := val }

/-- `Logger::set_formatter` for a pattern. -/
def setPattern (s : LoggerManager) (name : String) (val : String) : LoggerManager :=
  let new := LogFormatter.new val
  if new.mError then s else s.setFormatter name new

/-- The constructor of `LoggerManager`. -/
def new : LoggerManager :=
  let s : LoggerManager :=
    { heap := fun _ => { kind := .stdout }
      next := 0
      mLoggers := Function.update (fun _ => none) "root" (some (Logger.new "root")) }
  (s.newAppender { kind := .stdout }).addAppender "root" s.next

end LoggerManager

end WbServer
