import Transclude.Text.Blank
import Transclude.Text.Lines

/-!
# Comments

How a language marks comments and texts in quotes. `codeLine` keeps only what is code of a line; `withoutComment` keeps
texts in quotes too. Both may go on over several lines: a `Mode` says in which of them a line begins.
-/

namespace Transclude

structure CommentStyle where
  line : Option String
  blockStart : Option String
  blockEnd : Option String
  quotes : List String
deriving Repr, BEq, DecidableEq

namespace CommentStyle

def slashes : CommentStyle :=
  { line := some "//", blockStart := some "/*", blockEnd := some "*/", quotes := ["\"", "'"] }

def numberSign : CommentStyle :=
  { line := some "#", blockStart := none, blockEnd := none, quotes := ["\"", "'"] }

def markLength? (mark : Option String) (cs : List Char) : Option Nat :=
  match mark with
  | none => none
  | some m =>
    if m != "" && m.toList.isPrefixOf cs then some m.toList.length else none

def isQuote (style : CommentStyle) (c : Char) : Bool :=
  style.quotes.contains (String.singleton c)

end CommentStyle

inductive Mode where
  | code
  | comment
  | quoted (quote : Char)
deriving Repr, BEq, DecidableEq, Inhabited

/-- The code of a line and the mode after it; the next `skip` characters belong to a mark. -/
def codeFrom (style : CommentStyle) : Mode → Nat → List Char → List Char × Mode
  | mode, _, [] => ([], mode)
  | mode, skip + 1, _ :: cs => codeFrom style mode skip cs
  | .comment, 0, c :: cs =>
    match CommentStyle.markLength? style.blockEnd (c :: cs) with
    | some n => codeFrom style .code (n - 1) cs
    | none => codeFrom style .comment 0 cs
  | .quoted q, 0, c :: cs =>
    if c == '\\' then codeFrom style (.quoted q) 1 cs
    else codeFrom style (if c == q then .code else .quoted q) 0 cs
  | .code, 0, c :: cs =>
    if (CommentStyle.markLength? style.line (c :: cs)).isSome then ([], .code)
    else
      match CommentStyle.markLength? style.blockStart (c :: cs) with
      | some n => codeFrom style .comment (n - 1) cs
      | none =>
        if style.isQuote c then codeFrom style (.quoted c) 0 cs
        else
          let (kept, mode) := codeFrom style .code 0 cs
          (c :: kept, mode)

def codeLine (style : CommentStyle) (mode : Mode) (line : List Char) : List Char × Mode :=
  codeFrom style mode 0 line

/-- The text of a line outside comments and the mode after it; the next `skip` characters belong to a
mark. -/
def textFrom (style : CommentStyle) : Mode → Nat → List Char → List Char × Mode
  | mode, _, [] => ([], mode)
  | mode, skip + 1, _ :: cs => textFrom style mode skip cs
  | .comment, 0, c :: cs =>
    match CommentStyle.markLength? style.blockEnd (c :: cs) with
    | some n => textFrom style .code (n - 1) cs
    | none => textFrom style .comment 0 cs
  | .quoted q, 0, '\\' :: c :: cs =>
    let (kept, mode) := textFrom style (.quoted q) 0 cs
    ('\\' :: c :: kept, mode)
  | .quoted q, 0, c :: cs =>
    let (kept, mode) := textFrom style (if c == q && c != '\\' then .code else .quoted q) 0 cs
    (c :: kept, mode)
  | .code, 0, c :: cs =>
    if (CommentStyle.markLength? style.line (c :: cs)).isSome then ([], .code)
    else
      match CommentStyle.markLength? style.blockStart (c :: cs) with
      | some n => textFrom style .comment (n - 1) cs
      | none =>
        let (kept, mode) := textFrom style (if style.isQuote c then .quoted c else .code) 0 cs
        (c :: kept, mode)

/-- A line without its comment and the mode after it. A blank line outside comments stays; a line of
which nothing but blanks is left goes. -/
def withoutComment (style : CommentStyle) (mode : Mode) (line : List Char) : Option (List Char) × Mode :=
  if mode ≠ .comment && Text.allBlank line then (some line, mode)
  else
    let (kept, mode) := textFrom style mode 0 line
    (if Text.allBlank kept then none else some (Text.trimEnd kept), mode)

def linesWithoutComments (style : CommentStyle) (mode : Mode) : List (List Char) → List (List Char)
  | [] => []
  | line :: rest =>
    match withoutComment style mode line with
    | (some kept, mode) => kept :: linesWithoutComments style mode rest
    | (none, mode) => linesWithoutComments style mode rest

def removeComments (style : CommentStyle) (content : List Char) : List Char :=
  Text.joinWith ['\n'] (linesWithoutComments style .code (Text.lines content))

end Transclude
