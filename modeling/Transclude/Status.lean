/-!
# Statuses

What is said about a directive or a run: a text with its severity.
-/

namespace Transclude

inductive Level where
  | ok
  | warning
  | error
  | fatal
deriving Repr, BEq, DecidableEq, Inhabited

def Level.rank : Level → Nat
  | .ok => 1
  | .warning => 2
  | .error => 3
  | .fatal => 4

def Level.name : Level → String
  | .ok => "OK"
  | .warning => "WARNING"
  | .error => "ERROR"
  | .fatal => "FATAL"

structure Status where
  level : Level
  text : String
deriving Repr, BEq, DecidableEq, Inhabited

def Status.error (text : String) : Status :=
  { level := .error, text }

def Status.warning (text : String) : Status :=
  { level := .warning, text }

def Status.isFailure (s : Status) : Bool :=
  s.level = .error || s.level = .fatal

end Transclude
