import Gql.Token.Progress
/-!
# Streams of tokens

Three ways of reading a whole text, each a loop of `Lexer.read`:

* `readUpTo` makes a bounded number of reads, faults included, and stops after the first
  end token;
* `listing` gives every token up to and including the end token, or stops at the first
  fault;
* `significant` does the same but leaves out comments, which is what the grammar reads;
* `tokens` is `listing` with a fault turned into a last token of kind `error`.

The unbounded loops end because every read other than the end takes text
(`Lexer.read_rest_lt`).
-/
namespace Gql

inductive Stop
  | eof (t : Token)
  | fault (e : LexError)
deriving Repr

def LexError.toToken (e : LexError) : Token := ⟨.error, e.message, e.span⟩

namespace Lexer

/-- The outcomes of at most `limit` reads, stopping after the first end token, and whether
the end token was reached. -/
def readUpTo : (limit : Nat) → Lexer → List (Except LexError Token) × Bool
  | 0, _ => ([], false)
  | n + 1, lx =>
    match lx.read with
    | (.ok t, next) =>
      if t.kind = .eof then ([.ok t], true)
      else
        let more := readUpTo n next
        (.ok t :: more.1, more.2)
    | (.error e, next) =>
      let more := readUpTo n next
      (.error e :: more.1, more.2)

/-- Every token up to and including the end token; or the tokens before the first fault,
and the fault. -/
def listing (lx : Lexer) : List Token × Option LexError :=
  match _h : lx.read with
  | (.ok t, next) =>
    if _ht : t.kind = .eof then ([t], none)
    else
      let more := listing next
      (t :: more.1, more.2)
  | (.error e, _) => ([], some e)
termination_by lx.rest.length
decreasing_by
  have hn : next = lx.read.2 := by rw [_h]
  rw [hn]
  exact read_rest_lt (fun t' ht' => by rw [_h] at ht'; cases ht'; exact _ht)

/-- Every token up to and including the end token; or the tokens before the first fault,
and then the fault as a token of kind `error`.  Exactly one token of the listing closes it,
the last (`TokenKind.closes`). -/
def tokens (lx : Lexer) : List Token :=
  match lx.listing with
  | (ts, none) => ts
  | (ts, some e) => ts ++ [e.toToken]

/-- The tokens other than comments before the end or the first fault, and which of the two
came. -/
def significant (lx : Lexer) : List Token × Stop :=
  match _h : lx.read with
  | (.ok t, next) =>
    if _ht : t.kind = .eof then ([], .eof t)
    else
      let more := significant next
      if t.kind = .comment then more else (t :: more.1, more.2)
  | (.error e, _) => ([], .fault e)
termination_by lx.rest.length
decreasing_by
  have hn : next = lx.read.2 := by rw [_h]
  rw [hn]
  exact read_rest_lt (fun t' ht' => by rw [_h] at ht'; cases ht'; exact _ht)

end Lexer

end Gql
