/-!
# Directives and fragments

A directive asks for something to be put in its place. A document is a list of fragments: stretches of its own text,
directives, and texts that have taken the place of directives.
-/

namespace Transclude

abbrev Options := List (String × String)

namespace Options

def get? (options : Options) (name : String) : Option String :=
  options.lookup name

def has (options : Options) (name : String) : Bool :=
  (options.lookup name).isSome

def put (options : Options) (name value : String) : Options :=
  match options with
  | [] => [(name, value)]
  | (n, v) :: rest => if n == name then (n, value) :: rest else (n, v) :: put rest name value

def erase (options : Options) (name : String) : Options :=
  options.filter (·.1 != name)

end Options

structure Directive where
  kind : String
  source : String
  options : Options
  baseDir : String
deriving Repr, BEq, DecidableEq, Inhabited

structure Span where
  start : Nat
  length : Nat
deriving Repr, BEq, DecidableEq, Inhabited

def Span.of (s : Span) (cs : List Char) : List Char :=
  (cs.drop s.start).take s.length

inductive Fragment where
  | text (s : String)
  | span (s : Span)
  | directive (d : Directive)
deriving Repr, BEq, DecidableEq, Inhabited

end Transclude
