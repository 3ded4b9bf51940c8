import Transclude.Value.Json.Reader

/-!
# Versions

A version is three numbers with points between them. The next version raises one of them and sets those
after it to zero.
-/

namespace Transclude.Release

open Transclude.Text Transclude.Number

structure Version where
  major : Int
  minor : Int
  patch : Int
deriving Repr, BEq, DecidableEq

inductive VersionFault where
  | tooFew (count : Nat)
  | tooMany
  | notInteger (text : String)
  | longInteger (digits : Nat)
deriving Repr, BEq, DecidableEq

def shownLength : Nat := 200

def VersionFault.message : VersionFault → String
  | .tooFew count => s!"not enough values to unpack (expected 3, got {count})"
  | .tooMany => "too many values to unpack (expected 3)"
  | .notInteger text =>
    "invalid literal for int() with base 10: " ++ String.ofList ((quoted text).toList.take shownLength)
  | .longInteger digits => Json.tooManyDigits digits

namespace Version

def readPart (cs : List Char) : Except VersionFault Int :=
  match readInt (String.ofList cs) with
  | .ok n => .ok n
  | .error .malformed => .error (.notInteger (String.ofList cs))
  | .error (.tooLong digits) => .error (.longInteger digits)

def read (s : String) : Except VersionFault Version := do
  let parts := splitAt '.' s.toList
  match ← (parts.take 4).mapM readPart with
  | [major, minor, patch] => return { major, minor, patch }
  | numbers => .error (if numbers.length < 3 then .tooFew numbers.length else .tooMany)

def text (v : Version) : String :=
  s!"{v.major}.{v.minor}.{v.patch}"

inductive Bump where
  | major
  | minor
  | patch
deriving Repr, BEq, DecidableEq

def Bump.ofName? : String → Option Bump
  | "major" => some .major
  | "minor" => some .minor
  | "patch" => some .patch
  | _ => none

def next (v : Version) : Bump → Version
  | .major => { major := v.major + 1, minor := 0, patch := 0 }
  | .minor => { v with minor := v.minor + 1, patch := 0 }
  | .patch => { v with patch := v.patch + 1 }

end Version

end Transclude.Release
