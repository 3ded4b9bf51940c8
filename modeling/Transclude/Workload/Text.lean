import Transclude.Crash
import Transclude.Outline
import Transclude.Source.LineRange
import Transclude.Source.Region
import Transclude.Source.Symbol

/-!
# Workloads on texts

A workload makes a text of some size, works on it and gives what it found. These extract symbols, regions and ranges
of lines, and make outlines.
-/

namespace Transclude.Workload

def ofNat (n : Nat) : Value := .int n

def repeated (n : Nat) (text : Nat → String) : String :=
  String.join ((List.range n).map text)

/-! ## Symbols -/

/-- A class with `n` methods of three lines, and a function. -/
def indentedSource (n : Nat) : String :=
  "class Store:\n    size = 0\n" ++
  repeated n (fun i => s!"    def get{i}(self):\n        key = {i}\n        return key\n\n") ++
  "def top():\n    return 1\n"

def braceSource (n : Nat) : String :=
  "class Store \x7b\n" ++ repeated n (fun i => s!"  int get{i}() \x7b return {i}; \x7d\n") ++ "\x7d\n"

/-- A class whose braces stand alone, with `n` methods of one line. -/
def openBraceSource (n : Nat) : String :=
  "class Store\n\x7b\n" ++ repeated n (fun i => s!"  int Get{i}() \x7b return {i}; \x7d\n") ++ "\x7d\n"

/-- A class whose braces stand alone, with `n` methods of six lines. -/
def wideSource (n : Nat) : String :=
  "class Store\n\x7b\n" ++
  repeated n (fun i => s!"  int Get{i}()\n  \x7b\n    int a = {i};\n    a += 1;\n    return a;\n  \x7d\n") ++
  "\x7d\n"

def symbolLines (file symbol source : String) : Nat :=
  match Language.ofFile? file with
  | none => 0
  | some l => ((Symbol.extract l symbol.toList source.toList).map List.length).getD 0

/-- Extracts symbols from sources with `n` methods: the number of all lines, what is known of two file
names, and the numbers of lines. -/
def symbols (n : Nat) : Except Crash Value :=
  let indented := indentedSource n
  let counts := [
    symbolLines "a.cs" "Missing" (wideSource n), symbolLines "a.cs" "Store" (wideSource n),
    symbolLines "a.cs" "Store.Missing" (wideSource n), symbolLines "a.txt" "Store" (wideSource n),
    symbolLines "a.java" "Store" (braceSource n), symbolLines "a.java" "get0" (braceSource n),
    symbolLines "a.cpp" "Store" (openBraceSource n), symbolLines "a.cs" "Store.Get0" (openBraceSource n),
    symbolLines "a.py" "Store" indented, symbolLines "a.py" "Store.get0" indented,
    symbolLines "a.py" "top" indented]
  .ok (.list ([ofNat (counts.foldl (· + ·) 0),
    (Language.ofFile? "a.py").elim .null fun l => .text l.name,
    .bool (Language.ofFile? "a.txt").isNone] ++ counts.map ofNat))

/-! ## Regions and lines -/

/-- A text of `n` lines, the middle third of which is a region, before a region of one line. -/
def regionSource (n : Nat) : String :=
  let line := fun (i : Nat) =>
    (if i = n / 3 then "// md.start: middle\n" else "") ++ s!"line {i}\n" ++
    (if i + 1 = 2 * n / 3 then "// md.end: middle\n" else "")
  repeated n line ++ "// md.start: last\nfinal\n// md.end: last"

def extraction (n : Nat) : Except Crash Value := do
  let text := (regionSource n).toList
  let region := fun (name : String) =>
    ((Region.extract Region.defaultStart Region.defaultEnd name text).map fun l => ofNat l.length).getD .null
  let range := fun (r : String) => do
    let found ← match LineRange.extract text r.toList with
      | .ok found => pure found
      | .error (.tooLong digits) => throw (Crash.longInteger digits)
      | .error .malformed => pure none
    let count := (found.map fun l => ofNat l.length).getD .null
    pure (Value.list [.text r, count, .bool (LineRange.isValid r.toList)])
  let half := s!"{n / 2}.."
  let ranges ← ["1", "5..10", "..20", half, "bad", "0..5", "..", "5..3"].mapM range
  return .list ([region "middle", region "middle", region "last", region "missing"] ++ ranges)

/-! ## Outlines -/

/-- A text with `n` headings, of six levels and ten titles in turn, and a last one of the fourth level. -/
def headedSource (n : Nat) : String :=
  let heading := fun (i : Nat) => String.ofList (List.replicate (i % 6 + 1) '#') ++ s!" Sec{i % 10}\n\nText {i}.\n\n"
  repeated n heading ++ "#### Zz\n"

/-- Makes outlines of a text with `n` headings: the lengths of one of all levels with anchors, of one of three
levels without and of one of a text without headings, and an anchor. -/
def outlines (n : Nat) : Except Crash Value :=
  let headed := [Fragment.text (headedSource n)]
  .ok (.list [
    ofNat (Outline.render 0 6 true headed).length, ofNat (Outline.render 0 3 false headed).length,
    ofNat (Outline.render 0 6 true [.text "no headings\n"]).length,
    .text (String.ofList (Outline.slug "Hello World -- Topic".toList))])

end Transclude.Workload
