/-!
# Spans

Places in a source text are half-open ranges of byte offsets.  Nothing orders the two ends: a span
whose start lies past its stop is empty.
-/

namespace TriLang

/-- The bytes of a source text from `start` up to, not including, `stop`. -/
structure Span where
  start : Nat
  stop : Nat
  deriving DecidableEq, Inhabited

namespace Span

/-- The empty span at `offset`. -/
def empty (offset : Nat) : Span := ⟨offset, offset⟩

/-- The span from the earlier start to the later stop. -/
def join (a b : Span) : Span := ⟨min a.start b.start, max a.stop b.stop⟩

def length (s : Span) : Nat := s.stop - s.start

def isEmpty (s : Span) : Bool := s.length == 0

end Span

/-- The number of bytes that spell `cs` in UTF-8. -/
def utf8Length (cs : List Char) : Nat := cs.foldr (fun c n => c.utf8Size + n) 0

@[simp] theorem utf8Length_nil : utf8Length [] = 0 := rfl

@[simp] theorem utf8Length_cons (c : Char) (cs : List Char) :
    utf8Length (c :: cs) = c.utf8Size + utf8Length cs := rfl

end TriLang
