import Mathlib.Tactic

/-!
# Log levels
-/

namespace WbServer

/-- `LogLevel::Level`. -/
inductive LogLevel where
  | unknow
  | debug
  | info
  | warn
  | error
  | fatal
  deriving DecidableEq

namespace LogLevel

/-- `LogLevel::to_string`. -/
def toString : LogLevel → String
  | debug => "DEBUG"
  | info => "INFO"
  | warn => "WARN"
  | error => "ERROR"
  | fatal => "FATAL"
  | unknow => "UNKNOW"

/-- `LogLevel::from_string`. -/
def fromString (str : String) : LogLevel :=
  if str = "debug" then debug
  else if str = "info" then info
  else if str = "warn" then warn
  else if str = "error" then error
  else if str = "fatal" then fatal
  else if str = "DEBUG" then debug
  else if str = "INFO" then info
  else if str = "WARN" then warn
  else if str = "ERROR" then error
  else if str = "FATAL" then fatal
  else unknow

/-- Every level is read back from its text; `UNKNOW` is the default. -/
@[simp]
theorem fromString_toString (level : LogLevel) :
  fromString level.toString = level
  := by
  cases level <;> decide

end LogLevel

end WbServer
