import Classlet.SyntaxError

/-! # Parsers over tokens

A parser reads a front part of a list of tokens.  It answers what it read and the tokens left, or
the syntax error at which it stopped and the tokens left there, from which reading can be
resumed.  Lists of tokens end in the end mark, which no parser takes. -/

namespace Classlet

/-- A syntax error, and the tokens that were left when it was found. -/
structure ParseFailure where
  error : SyntaxError
  rest : List Token
  deriving Repr

def Parser (α : Type) : Type := List Token → Except ParseFailure (α × List Token)

namespace Parser

variable {α β : Type}

protected def pure (a : α) : Parser α := fun ts => .ok (a, ts)

/-- Read with `p`, then with what `p` calls for. -/
protected def bind (p : Parser α) (f : α → Parser β) : Parser β := fun ts =>
  match p ts with
  | .ok (a, rest) => f a rest
  | .error failure => .error failure

instance : Monad Parser where
  pure := Parser.pure
  bind := Parser.bind

@[simp] theorem pure_apply (a : α) (ts : List Token) : (pure a : Parser α) ts = .ok (a, ts) := rfl

@[simp] theorem bind_apply (p : Parser α) (f : α → Parser β) (ts : List Token) :
    (p >>= f) ts = match p ts with
      | .ok (a, rest) => f a rest
      | .error failure => .error failure := rfl

/-- The first token of a list; past the end it is an end mark. -/
def current : List Token → Token
  | [] => Token.endOfInput 0
  | t :: _ => t

/-- The next token, which is not taken. -/
def peek : Parser Token := fun ts => .ok (current ts, ts)

/-- Whether the next token is of kind `k`. -/
def check (k : TokenKind) : Parser Bool := fun ts => .ok (decide ((current ts).kind = k), ts)

/-- Whether the token behind the next one is of kind `k`. -/
def checkSecond (k : TokenKind) : Parser Bool := fun ts =>
  .ok (decide ((current ts.tail).kind = k), ts)

def atEnd : Parser Bool := check .endOfInput

/-- Stop with a fault at the token `t`. -/
def failAt (t : Token) (fault : ParseFault) : Parser α := fun ts =>
  .error ⟨SyntaxError.near t fault, ts⟩

/-- Stop with a fault at the next token. -/
def fail (fault : ParseFault) : Parser α := fun ts => failAt (current ts) fault ts

/-- Take the next token if it is of kind `k`. -/
def accept (k : TokenKind) : Parser (Option Token)
  | [] => .ok (none, [])
  | t :: ts => if t.kind = k then .ok (some t, ts) else .ok (none, t :: ts)

/-- Take the next token, which has to be of kind `k`. -/
def expect (k : TokenKind) (fault : ParseFault) : Parser Token := do
  match ← accept k with
  | some t => pure t
  | none => fail fault

/-- Take the symbol `s`, which has to stand at a given place. -/
def symbol (s : Symbol) (place : Place) : Parser Token := expect (.symbol s) (.missing s place)

def identifier (what : Lacking) : Parser Token := expect .identifier (.lacking what)

/-- Whether the symbol `s` is next; it is taken then. -/
def acceptSymbol (s : Symbol) : Parser Bool := do return (← accept (.symbol s)).isSome

/-- Whether the reserved word `k` is next; it is taken then. -/
def acceptKeyword (k : Keyword) : Parser Bool := do return (← accept (.keyword k)).isSome

/-- Items separated by commas behind a first one, at most `fuel` of them. -/
def moreItems (item : Parser α) : Nat → Parser (List α)
  | 0 => pure []
  | fuel + 1 => do
    if ← acceptSymbol .comma then
      let a ← item
      let more ← moreItems item fuel
      pure (a :: more)
    else pure []

/-- One or more items separated by commas, at most `fuel` behind the first. -/
def items (fuel : Nat) (item : Parser α) : Parser (List α) := do
  let a ← item
  let more ← moreItems item fuel
  pure (a :: more)

/-- Items up to a closing symbol, with commas between them and perhaps behind the last; at most
`fuel` of them. -/
def itemsUntil (close : Symbol) (item : Parser α) : Nat → Parser (List α)
  | 0 => pure []
  | fuel + 1 => do
    if ← check (.symbol close) then pure []
    else
      let a ← item
      if ← acceptSymbol .comma then
        let more ← itemsUntil close item fuel
        pure (a :: more)
      else pure [a]

/-- Operands joined by operators of one level, combined from the left; at most `fuel` operators. -/
def chain (operator? : TokenKind → Option (α → α → α)) (operand : Parser α) : Nat → α → Parser α
  | 0, left => pure left
  | fuel + 1, left => fun ts =>
    match ts with
    | [] => .ok (left, [])
    | t :: rest =>
      match operator? t.kind with
      | some combine => (do chain operator? operand fuel (combine left (← operand))) rest
      | none => .ok (left, t :: rest)

/-- A first operand and those joined to it, at most `fuel` of them. -/
def chained (fuel : Nat) (operator? : TokenKind → Option (α → α → α)) (operand : Parser α) :
    Parser α := do
  let left ← operand
  chain operator? operand fuel left

end Parser

end Classlet
