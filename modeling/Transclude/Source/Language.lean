import Transclude.Path
import Transclude.Source.Comment
import Transclude.Source.Heading

/-!
# Languages

What has to be known to find declarations: comments, and for each kind of declaration the form of its heading and how
far it reaches.
-/

namespace Transclude

/-- How far a declaration reaches: to the brace that closes its first brace, to the end of the text, or
to the last line that is indented more. -/
inductive Extent where
  | braces
  | restOfFile
  | indentation
deriving Repr, BEq, DecidableEq

structure Declaration where
  heading : List Piece
  extent : Extent
deriving Repr, BEq, DecidableEq

structure Language where
  name : String
  extensions : List String
  comments : CommentStyle
  declarations : List Declaration
deriving Repr, BEq, DecidableEq

namespace Language

def named (before : List Piece) (word : String) : List Piece :=
  .blanks 0 :: before ++ [.word word, .blanks 1, .name, .edge]

def cFamily : Language where
  name := "C/C++"
  extensions := ["c", "cpp", "h", "hpp", "cc", "cxx"]
  comments := .slashes
  declarations := [
    ⟨named [] "namespace", .braces⟩,
    ⟨named [] "class", .braces⟩,
    ⟨named [.modifier ["typedef"]] "struct", .braces⟩,
    ⟨[.blanks 0, .modifier ["typedef"], .word "enum", .blanks 1, .modifier ["class"], .name, .edge],
      .braces⟩,
    ⟨[.blanks 0, .anything, .gap, .qualifiers, .name, .blanks 0, .word "("], .braces⟩]

def csharpAccess : Piece :=
  .modifier ["public", "private", "protected", "internal"]

def csharp : Language where
  name := "C#"
  extensions := ["cs"]
  comments := .slashes
  declarations := [
    ⟨[.blanks 0, .word "namespace", .blanks 1, .name, .blanks 0, .word ";"], .restOfFile⟩,
    ⟨named [] "namespace", .braces⟩,
    ⟨named [csharpAccess, .modifier ["static"], .modifier ["abstract"], .modifier ["partial"]] "class",
      .braces⟩,
    ⟨named [csharpAccess, .modifier ["readonly"]] "struct", .braces⟩,
    ⟨named [csharpAccess] "interface", .braces⟩,
    ⟨named [csharpAccess] "enum", .braces⟩,
    ⟨[.blanks 0, csharpAccess, .modifier ["static"], .modifier ["abstract"], .modifier ["virtual"],
      .modifier ["override"], .modifier ["async"], .anything, .blanks 1, .name, .blanks 0,
      .oneOf "(<"], .braces⟩]

def javaAccess : Piece :=
  .modifier ["public", "private", "protected"]

def java : Language where
  name := "Java"
  extensions := ["java"]
  comments := .slashes
  declarations := [
    ⟨named [javaAccess, .modifier ["static"], .modifier ["abstract"]] "class", .braces⟩,
    ⟨named [javaAccess] "interface", .braces⟩,
    ⟨named [javaAccess] "enum", .braces⟩,
    ⟨[.blanks 0, javaAccess, .modifier ["static"], .modifier ["abstract"], .anything, .blanks 1, .name,
      .blanks 0, .word "("], .braces⟩]

def python : Language where
  name := "Python"
  extensions := ["py"]
  comments := .numberSign
  declarations := [
    ⟨[.blanks 0, .word "class", .blanks 1, .name, .blanks 0, .enumBases], .indentation⟩,
    ⟨named [] "class", .indentation⟩,
    ⟨[.blanks 0, .modifier ["async"], .word "def", .blanks 1, .name, .blanks 0, .word "("],
      .indentation⟩]

def all : List Language := [cFamily, csharp, java, python]

def ofFile? (file : String) : Option Language :=
  let ext := String.ofList ((Path.ofText file).extension.toList.dropWhile (· == '.'))
  all.find? (·.extensions.contains ext)

def isIndented (l : Language) : Bool :=
  l.declarations.all (·.extent == .indentation)

end Language

end Transclude
