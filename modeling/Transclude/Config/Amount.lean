/-!
# Amounts

An amount in a configuration is a whole number. A truth value counts as one or zero and keeps its form.
-/

namespace Transclude

inductive Amount where
  | int (n : Int)
  | truth (b : Bool)
deriving Repr, BEq, DecidableEq, Inhabited

namespace Amount

def value : Amount → Int
  | .int n => n
  | .truth b => b.toNat

def text : Amount → String
  | .int n => toString n
  | .truth b => if b then "True" else "False"

end Amount

end Transclude
