import Gql.Text.Bytes
/-!
# Sources, cursors and spans

A `Source` is a named text.  Reading it moves a `Cursor` one character at a time: the
byte offset grows by the character's UTF-8 length, and the 1-based line and column follow
the character.  A line feed, a carriage return, and a carriage return followed by a line
feed each end exactly one line: the cursor remembers a carriage return so that the line
feed after it does not count again.

A `Span` is a stretch of bytes `[start, stop)` with the line and column of its start; every
token, fault and note of this library is placed by one.
-/
namespace Gql

/-- A text to be read, and the name under which diagnostics cite it.  Built-in sources are
those the program supplies itself rather than reading from the user. -/
structure Source where
  name : String
  text : String
  builtIn : Bool := false
deriving Repr, DecidableEq

/-- A place in a text: byte offset, 1-based line and column, and whether the last character
read was a carriage return. -/
structure Cursor where
  offset : Nat := 0
  line : Nat := 1
  column : Nat := 1
  afterCR : Bool := false
deriving Repr, DecidableEq

namespace Cursor

def next (p : Cursor) (c : Char) : Cursor :=
  if c = '\n' then
    if p.afterCR then { p with offset := p.offset + 1, afterCR := false }
    else { offset := p.offset + 1, line := p.line + 1, column := 1, afterCR := false }
  else if c = '\r' then
    { offset := p.offset + 1, line := p.line + 1, column := 1, afterCR := true }
  else
    { p with offset := p.offset + c.utf8Size, column := p.column + 1, afterCR := false }

def advance (p : Cursor) (cs : List Char) : Cursor := cs.foldl next p

@[simp] theorem advance_nil (p : Cursor) : p.advance [] = p := rfl

@[simp] theorem advance_cons (p : Cursor) (c : Char) (cs : List Char) :
    p.advance (c :: cs) = (p.next c).advance cs := rfl

theorem advance_append (p : Cursor) (as bs : List Char) :
    p.advance (as ++ bs) = (p.advance as).advance bs := by
  simp [advance, List.foldl_append]

theorem offset_advance (p : Cursor) (cs : List Char) :
    (p.advance cs).offset = p.offset + Text.utf8Length cs := by
  induction cs generalizing p with
  | nil => rfl
  | cons c cs ih =>
    rw [advance_cons, ih, Text.utf8Length_cons]
    have hn : '\n'.utf8Size = 1 := by decide
    have hr : '\r'.utf8Size = 1 := by decide
    unfold next
    by_cases h1 : c = '\n'
    · subst h1; cases p.afterCR <;> simp only [if_true, if_false, Bool.false_eq_true] <;> omega
    · by_cases h2 : c = '\r'
      · subst h2; simp only [if_true, if_neg h1]; omega
      · simp only [if_neg h1, if_neg h2]; omega

end Cursor

structure Span where
  start : Nat
  stop : Nat
  line : Nat
  column : Nat
deriving Repr, DecidableEq

namespace Cursor

def spanTo (a b : Cursor) : Span := ⟨a.offset, b.offset, a.line, a.column⟩

def spanOf (p : Cursor) (cs : List Char) (i j : Nat) : Span :=
  (p.advance (cs.take i)).spanTo (p.advance (cs.take j))

end Cursor

/-- The text of the span in `source`; empty if the span does not fall on character
boundaries of it. -/
def Span.text (source : String) (s : Span) : String :=
  String.ofList ((Text.sliceBytes source.toList s.start s.stop).getD [])

end Gql
