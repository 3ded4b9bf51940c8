import Transclude.Event

/-!
# Summaries

The line that ends a run: how many files went well and how many did not, and how long it took.
-/

namespace Transclude.Summary

def counted (n : Int) (one several : String) : String :=
  if n = 1 then s!"{n} {one}" else s!"{n} {several}"

def countedIfAny (n : Int) (one several : String) : List String :=
  if n = 0 then [] else [counted n one several]

def verifyText (s : Summary) : String :=
  let checked := counted (s.upToDate + s.stale) "file" "files"
  let time := s.elapsed.fixed 3
  s!"embedm verify complete, {checked} checked, {s.upToDate} up-to-date, {s.stale} stale, " ++
    s!"{s.errors} errors, completed in {time}s"

def writeText (s : Summary) : String :=
  let parts := (counted s.ok "file" "files" ++ " ok") ::
    (countedIfAny s.warnings "warning" "warnings" ++ countedIfAny s.errors "error" "errors")
  let shown := ", ".intercalate parts
  let time := s.elapsed.fixed 1
  s!"Embedm complete, {shown}, total time: {time}s"

def text (s : Summary) : String :=
  if s.verifying then s.verifyText else s.writeText

def hint (s : Summary) : String :=
  s!"{s.text}. Use -v 2 or --verbose 2 for more information."

end Transclude.Summary
