import Transclude.Event

/-!
# Notes

Lines about single matters: a warning, an error, the use of the cache, the time that something took.
-/

namespace Transclude.Note

open Transclude.Number

def warning (s : Status) : String :=
  s!"warning: {s.text}"

def error (s : Status) : String :=
  s!"error: {s.text}"

def cache (path event : String) (elapsed : Binary64) : String :=
  let time := elapsed.fixed 3
  if event == "miss" then s!"  [cache miss] {time}s — {path}" else s!"  [cache {event}] {path}"

def timing (step kind source : String) (elapsed : Binary64) : String :=
  let time := elapsed.fixed 3
  s!"  [{step}] {time}s — {kind}: {source}"

end Transclude.Note
