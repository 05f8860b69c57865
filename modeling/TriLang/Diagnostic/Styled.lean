/-!
# Styled text

A row of text for a terminal is made of pieces, each plain or in a style.  With colour, a styled
piece stands between an escape sequence that sets its style and one that resets it; without, the
pieces are written as they are.
-/

namespace TriLang

inductive Style
  | blue
  | cyan
  | bold
  | boldBlue
  | boldCyan
  | boldRed
  | boldYellow
  deriving DecidableEq

namespace Style

/-- The parameters of the escape sequence that sets a style. -/
def code : Style → List Char
  | blue => ['3', '4']
  | cyan => ['3', '6']
  | bold => ['1']
  | boldBlue => ['1', ';', '3', '4']
  | boldCyan => ['1', ';', '3', '6']
  | boldRed => ['1', ';', '3', '1']
  | boldYellow => ['1', ';', '3', '3']

/-- The escape sequence with the given parameters. -/
def sequence (parameters : List Char) : List Char := '\x1b' :: '[' :: (parameters ++ ['m'])

/-- Sets the style again after each reset inside a text. -/
def keepOn (style : Style) : List Char → List Char
  | '\x1b' :: '[' :: '0' :: 'm' :: rest =>
    sequence ['0'] ++ sequence style.code ++ style.keepOn rest
  | c :: rest => c :: style.keepOn rest
  | [] => []

/-- A text in a style. -/
def paint (style : Style) (text : List Char) : List Char :=
  sequence style.code ++ style.keepOn text ++ sequence ['0']

end Style

/-- A text in one style, or plain. -/
structure Piece where
  style : Option Style
  text : List Char
  deriving DecidableEq

namespace Piece

def plain (text : String) : Piece := ⟨none, text.toList⟩

def styled (style : Style) (text : String) : Piece := ⟨some style, text.toList⟩

def write (color : Bool) (p : Piece) : List Char :=
  match color, p.style with
  | true, some style => style.paint p.text
  | _, _ => p.text

end Piece

/-- A row of text without the newline that ends it. -/
abbrev Row := List Piece

def Row.write (color : Bool) (r : Row) : List Char := r.flatMap (Piece.write color) ++ ['\n']

end TriLang
