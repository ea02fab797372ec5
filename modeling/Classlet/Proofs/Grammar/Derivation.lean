import Classlet.Syntax

/-! # The grammar of expressions as derivations

`Grammar.Derives l ts x` says that the tokens `ts` are an expression of level `l` with the tree `x`,
and `Grammar.DerivesList ts x` that they are a comma list of expressions, which is a tuple if it has
two or more.  The rules are those of a textbook: a binary level has a left-recursive rule for its
operators (`Level.operators`), and every expression of a tighter level is one of the looser.
Lambdas are left out.

The derivations know nothing of how texts are read: no lookahead, no order of attempts, no bounds
but the most arguments of a call. -/

namespace Classlet.Grammar

/-! ### Levels -/

/-- The levels of expressions, from the loosest to the tightest. -/
inductive Level where
  | disjunction
  | conjunction
  | negation
  | comparison
  | bitOr
  | bitXor
  | bitAnd
  | shift
  | sum
  | product
  | sign
  | power
  | postfixed
  | primary
  deriving DecidableEq

namespace Level

def tighter? : Level → Option Level
  | disjunction => some conjunction
  | conjunction => some negation
  | negation => some comparison
  | comparison => some bitOr
  | bitOr => some bitXor
  | bitXor => some bitAnd
  | bitAnd => some shift
  | shift => some sum
  | sum => some product
  | product => some sign
  | sign => some power
  | power => some postfixed
  | postfixed => some primary
  | primary => none

/-- The binary operators of a level that associate to the left. -/
def operators : Level → List (TokenKind × (BinaryOp ⊕ Connective))
  | disjunction => [(.keyword .or, .inr .or)]
  | conjunction => [(.keyword .and, .inr .and)]
  | comparison =>
    [(.symbol .equalEqual, .inl .eq), (.symbol .bangEqual, .inl .ne), (.symbol .less, .inl .lt),
      (.symbol .lessEqual, .inl .le), (.symbol .greater, .inl .gt),
      (.symbol .greaterEqual, .inl .ge)]
  | bitOr => [(.symbol .pipe, .inl .bitOr)]
  | bitXor => [(.symbol .caret, .inl .bitXor)]
  | bitAnd => [(.symbol .ampersand, .inl .bitAnd)]
  | shift => [(.symbol .lessLess, .inl .shl), (.symbol .greaterGreater, .inl .shr)]
  | sum => [(.symbol .plus, .inl .add), (.symbol .minus, .inl .sub)]
  | product =>
    [(.symbol .star, .inl .mul), (.symbol .slash, .inl .div), (.symbol .percent, .inl .mod)]
  | negation | sign | power | postfixed | primary => []

end Level

/-- Two operands joined by an operator. -/
def joined : BinaryOp ⊕ Connective → Expr → Expr → Expr
  | .inl op => .binary op
  | .inr op => .logical op

/-- The signs and what they stand for. -/
def signs : List (TokenKind × UnaryOp) :=
  [(.symbol .minus, .neg), (.symbol .plus, .pos), (.symbol .tilde, .invert)]

/-- The kinds of tokens that carry a literal. -/
def literalKinds : List TokenKind :=
  [.keyword .true, .keyword .false, .keyword .nil, .integer, .real, .string]

def argumentLimit : Nat := 255

/-! ### Lists -/

variable {α : Type}

/-- One or more items with commas between them. -/
inductive Separated (item : List Token → α → Prop) : List Token → List α → Prop where
  | one {ts : List Token} {a : α} : item ts a → Separated item ts [a]
  | more {us vs : List Token} {comma : Token} {a : α} {as : List α} :
      item us a → comma.kind = .symbol .comma → Separated item vs as →
      Separated item (us ++ comma :: vs) (a :: as)

/-- Any number of items with commas between them; `closing` allows one comma behind the last. -/
inductive Listed (closing : Bool) (item : List Token → α → Prop) :
    List Token → List α → Prop where
  | none : Listed closing item [] []
  | items {ts : List Token} {as : List α} : Separated item ts as → Listed closing item ts as
  | closed {ts : List Token} {comma : Token} {as : List α} :
      closing = true → Separated item ts as → comma.kind = .symbol .comma →
      Listed closing item (ts ++ [comma]) as

/-- An expression, or nothing. -/
inductive Bound (expr : List Token → Expr → Prop) : List Token → Option Expr → Prop where
  | none : Bound expr [] none
  | some {ts : List Token} {x : Expr} : expr ts x → Bound expr ts (some x)

/-- An argument by position or by name. -/
inductive Argument (expr : List Token → Expr → Prop) :
    List Token → Expr ⊕ KeywordArg → Prop where
  | positional {ts : List Token} {x : Expr} : expr ts x → Argument expr ts (.inl x)
  | keyword {name equal : Token} {ts : List Token} {x : Expr} :
      name.kind = .identifier → equal.kind = .symbol .equal → expr ts x →
      Argument expr (name :: equal :: ts) (.inr (.mk name.lexeme x))

/-- Arguments of a call: positional ones before those by name, which have names of their own, and
not too many. -/
structure Admits (arguments : List (Expr ⊕ KeywordArg)) (positional : List Expr)
    (keywords : List KeywordArg) : Prop where
  order : arguments = positional.map .inl ++ keywords.map .inr
  limit : arguments.length ≤ argumentLimit
  distinct : (keywords.map KeywordArg.name).Nodup

/-! ### Expressions -/

/-- The tokens are an expression of a level, with a tree. -/
inductive Derives : Level → List Token → Expr → Prop where
  /-- An expression of a tighter level. -/
  | tighter {l l' : Level} {ts : List Token} {x : Expr} :
      l.tighter? = some l' → Derives l' ts x → Derives l ts x
  /-- `x op y`, with `op` of the level. -/
  | join {l l' : Level} {us vs : List Token} {t : Token} {op : BinaryOp ⊕ Connective} {x y : Expr} :
      l.tighter? = some l' → (t.kind, op) ∈ l.operators → Derives l us x → Derives l' vs y →
      Derives l (us ++ t :: vs) (joined op x y)
  /-- `not x`. -/
  | not {t : Token} {ts : List Token} {x : Expr} :
      t.kind = .keyword .not → Derives .negation ts x → Derives .negation (t :: ts) (.not x)
  /-- An operand behind a sign. -/
  | sign {t : Token} {op : UnaryOp} {ts : List Token} {x : Expr} :
      (t.kind, op) ∈ signs → Derives .sign ts x → Derives .sign (t :: ts) (.unary op x)
  /-- `x ** y`. -/
  | power {t : Token} {us vs : List Token} {x y : Expr} :
      t.kind = .symbol .starStar → Derives .postfixed us x → Derives .sign vs y →
      Derives .power (us ++ t :: vs) (.binary .pow x y)
  /-- `x(arguments)`. -/
  | call {us vs : List Token} {l r : Token} {x : Expr} {arguments : List (Expr ⊕ KeywordArg)}
      {positional : List Expr} {keywords : List KeywordArg} :
      Derives .postfixed us x → l.kind = .symbol .leftParen →
      Listed false (Argument (Derives .disjunction)) vs arguments →
      r.kind = .symbol .rightParen → Admits arguments positional keywords →
      Derives .postfixed (us ++ l :: (vs ++ [r])) (.call x positional keywords)
  /-- `x[i]`. -/
  | index {us vs : List Token} {l r : Token} {x i : Expr} :
      Derives .postfixed us x → l.kind = .symbol .leftBracket → Derives .disjunction vs i →
      r.kind = .symbol .rightBracket → Derives .postfixed (us ++ l :: (vs ++ [r])) (.index x i)
  /-- `x[start:stop]`. -/
  | slice {us vs ws : List Token} {l colon r : Token} {x : Expr} {start stop : Option Expr} :
      Derives .postfixed us x → l.kind = .symbol .leftBracket →
      Bound (Derives .disjunction) vs start → colon.kind = .symbol .colon →
      Bound (Derives .disjunction) ws stop → r.kind = .symbol .rightBracket →
      Derives .postfixed (us ++ l :: (vs ++ colon :: (ws ++ [r]))) (.slice x start stop)
  /-- `x.name`. -/
  | attr {us : List Token} {dot name : Token} {x : Expr} :
      Derives .postfixed us x → dot.kind = .symbol .dot → name.kind = .identifier →
      Derives .postfixed (us ++ [dot, name]) (.attr x name.lexeme)
  | literal {t : Token} {value : Literal} :
      t.kind ∈ literalKinds → t.literal = some value → Derives .primary [t] (.literal value)
  | var {t : Token} : t.kind = .identifier → Derives .primary [t] (.var t.lexeme)
  /-- `()`. -/
  | unit {l r : Token} :
      l.kind = .symbol .leftParen → r.kind = .symbol .rightParen →
      Derives .primary [l, r] (.tuple [])
  /-- `(x)`. -/
  | group {l r : Token} {ts : List Token} {x : Expr} :
      l.kind = .symbol .leftParen → Derives .disjunction ts x → r.kind = .symbol .rightParen →
      Derives .primary (l :: (ts ++ [r])) x
  /-- `(x,)`, `(x, y)`, `(x, y,)` and so on. -/
  | tuple {l comma r : Token} {us vs : List Token} {x : Expr} {xs : List Expr} :
      l.kind = .symbol .leftParen → Derives .disjunction us x → comma.kind = .symbol .comma →
      Listed true (Derives .disjunction) vs xs → r.kind = .symbol .rightParen →
      Derives .primary (l :: (us ++ comma :: (vs ++ [r]))) (.tuple (x :: xs))
  /-- `[]`, `[x]`, `[x,]` and so on. -/
  | list {l r : Token} {ts : List Token} {xs : List Expr} :
      l.kind = .symbol .leftBracket → Listed true (Derives .disjunction) ts xs →
      r.kind = .symbol .rightBracket → Derives .primary (l :: (ts ++ [r])) (.list xs)

/-- The tokens are a comma list of expressions: the expression if it is one, or a tuple. -/
inductive DerivesList (ts : List Token) : Expr → Prop where
  | single {x : Expr} : Derives .disjunction ts x → DerivesList ts x
  | tuple {xs : List Expr} :
      Separated (Derives .disjunction) ts xs → 2 ≤ xs.length → DerivesList ts (.tuple xs)

end Classlet.Grammar
