import PromptOutline.Token

/-!
# Token queues

A queue hands out the tokens of one file in order. Once it is empty it keeps handing out the mark
for the end of the file, at the line of the token pushed last.
-/

namespace PromptOutline

/-- The tokens of one file that wait to be read. -/
structure TokenQueue where
  tokens : List Token := []
  fileName : String := ""
  lastLine : Nat := 0
  deriving Repr, DecidableEq, Inhabited

namespace TokenQueue

/-- The empty queue of a file. -/
def ofFile (fileName : String) : TokenQueue := { fileName, lastLine := 1 }

/-- The queue that holds the tokens of a file. -/
def ofTokens (fileName : String) (tokens : List Token) : TokenQueue :=
  { tokens, fileName, lastLine := (tokens.getLast?.map Token.line).getD 1 }

/-- The mark that an empty queue hands out. -/
def ending (q : TokenQueue) : Token := Token.endOfFile q.fileName q.lastLine

/-- Add a token behind the others. -/
def push (q : TokenQueue) (t : Token) : TokenQueue :=
  { q with tokens := q.tokens ++ [t], lastLine := t.line }

/-- The first token, which is taken out. -/
def pop (q : TokenQueue) : Token × TokenQueue :=
  match q.tokens with
  | [] => (q.ending, q)
  | t :: rest => (t, { q with tokens := rest })

/-- The first token, which stays. -/
def peek? (q : TokenQueue) : Option Token := q.tokens.head?

/-- The number of tokens that wait. -/
def size (q : TokenQueue) : Nat := q.tokens.length

/-- All tokens that wait, closed by the mark for the end of the file. -/
def drain (q : TokenQueue) : List Token × TokenQueue :=
  let closed := (q.tokens.getLast?.map Token.kind) == some .endOfFile
  (if closed then q.tokens else q.tokens ++ [q.ending], { q with tokens := [] })

/-- A token that is pushed is the last one. -/
theorem tokens_push (q : TokenQueue) (t : Token) : (q.push t).tokens = q.tokens ++ [t] := rfl

/-- Pushing a token onto some others gives the queue of all of them. -/
theorem ofTokens_concat (fileName : String) (ts : List Token) (t : Token) :
    (ofTokens fileName ts).push t = ofTokens fileName (ts ++ [t]) := by
  simp [ofTokens, push]

end TokenQueue

end PromptOutline
