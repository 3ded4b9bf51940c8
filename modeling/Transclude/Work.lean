import Transclude.Event

/-!
# Work

Planning and compiling read files through the cache, ask questions and report what they do. The desk holds all that
changes; work that crashes leaves it as it was at that moment.
-/

namespace Transclude

structure Desk where
  disk : Disk
  cache : Cache
  past : List Output := []
  answers : List Char := []
  terminal : Bool := false
  acceptAll : Bool := false
  compiled : Nat := 0

def Desk.log (d : Desk) : List Output :=
  d.past.reverse

abbrev Work := ExceptT Crash (StateM Desk)

namespace Work

def report (o : Output) : Work Unit :=
  modify fun d => { d with past := o :: d.past }

def emit (e : Event) : Work Unit :=
  report (.event e)

def errorLine (line : String) : Work Unit :=
  report (.err (line ++ "\n"))

def lift {α : Type} (r : Except Crash α) : Work α :=
  match r with
  | .ok a => pure a
  | .error c => throw c

def readFile (path : String) : Work (Option String × List Status) := do
  let desk ← get
  let reply ← lift (desk.cache.get desk.disk path)
  modify fun d => { d with cache := reply.cache }
  for e in reply.events do
    emit (.cache e)
  return (reply.value, reply.errors)

/-! ## Questions -/

inductive Choice where
  | yes
  | no
  | always
  | exit
deriving Repr, BEq, DecidableEq

def question : String := "Continue with compilation (yes/no/always/exit)? [y/N/a/x]"

def Choice.ofLine (line : List Char) : Choice :=
  match Text.lower (Text.strip (String.ofList line)) with
  | "a" => .always
  | "always" => .always
  | "y" => .yes
  | "yes" => .yes
  | "x" => .exit
  | "exit" => .exit
  | _ => .no

def ask : Work Choice := do
  let desk ← get
  if !desk.terminal then return .exit
  report (.out question)
  let line := desk.answers.takeWhile (· != '\n')
  modify fun d => { d with answers := d.answers.drop (line.length + 1) }
  if desk.answers.isEmpty then return .exit else return .ofLine line

end Work

end Transclude
