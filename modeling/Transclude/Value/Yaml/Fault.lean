import Transclude.Value.Json.Reader

/-!
# Why a YAML document is refused

A document that breaks the rules of the language is `malformed`. The other faults arise when a scalar cannot be read
as what its form or tag says.
-/

namespace Transclude.Yaml

inductive Fault where
  | malformed
  | integer (text : String) (base : Nat)
  | tooLong (digits : Nat)
  | float (text : String)
  | emptyNumber
  | truth (text : String)
  | time (fault : Time.Fault)
  | noTime
  | codePoint (n : Nat)
  | recursive
deriving Repr, DecidableEq

def Fault.message : Fault → String
  | .malformed => syntaxDetail
  | .integer text base => s!"invalid literal for int() with base {base}: {Text.quoted text}"
  | .tooLong digits => Json.tooManyDigits digits
  | .float text => s!"could not convert string to float: {Text.quoted text}"
  | .emptyNumber => "string index out of range"
  | .truth text => Text.quoted text
  | .time fault => fault.message
  | .noTime => "'NoneType' object has no attribute 'groupdict'"
  | .codePoint n =>
    if n < Nat.pow 2 31 then "chr() arg not in range(0x110000)"
    else "Python int too large to convert to C int"
  | .recursive => "Circular reference detected"

end Transclude.Yaml
