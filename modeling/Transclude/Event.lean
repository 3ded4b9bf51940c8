import Transclude.Cache

/-!
# Events

What a run reports while it goes on. Events and the texts that a run writes make its log; how events are shown is
decided apart from the run.
-/

namespace Transclude

open Transclude.Number

structure Summary where
  written : Int := 0
  target : String := "stdout"
  ok : Int := 0
  warnings : Int := 0
  errors : Int := 0
  elapsed : Binary64 := .zero false
  verifying : Bool := false
  upToDate : Int := 0
  stale : Int := 0
deriving Repr, BEq

inductive Event where
  | sessionStarted (version config input output : String)
  | sessionComplete (summary : Summary)
  | pluginsLoaded (discovered loaded : Int) (errors warnings : List String)
  | planningStarted (files : Int)
  | filePlanned (path : String) (index total : Int)
  | filePlanError (path : String) (index total : Int) (message : String)
  | planningComplete (files errors : Int)
  | compilationStarted (files : Int)
  | fileStarted (path : String) (nodes index total : Int)
  | nodeCompiled (path : String) (index count : Int) (elapsed : Binary64)
  | fileCompleted (path output : String) (elapsed : Binary64) (index total : Int)
  | fileError (path message : String) (elapsed : Binary64) (index total : Int)
  | compilationComplete (ok errors : Int)
  | cache (event : Cache.Event)
  | diagnostic (plugin path : String) (level : Level) (message : String)
deriving Repr, BEq

inductive Output where
  | event (e : Event)
  | out (text : String)
  | err (text : String)
deriving Repr, BEq

end Transclude
