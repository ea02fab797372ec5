import Classlet.SyntaxError
import Classlet.Numeral.Read

/-! # Scanning

`Token.scan` cuts a text into tokens.  The characters are read front to back.  `scanNext` reads
one item: a token, a blank, a comment or a faulty run of characters; it says which characters it
took, how many newlines it counted among them, and what is left.  Items are read until the text
is used up, so that every fault of a text is reported; the tokens are the answer only when there
is no fault.

A newline is counted where it stands between tokens or unescaped in a string. -/

namespace Classlet.Token

def isLetter (c : Char) : Bool := c.isAlpha || c == '_'

/-- The characters of an identifier behind its first one. -/
def isWordChar (c : Char) : Bool := isLetter c || c.isDigit

/-- What one item of a text turned out to be. -/
inductive Item where
  | blank
  | token (kind : TokenKind) (literal : Option Literal)
  /-- A run without token.  A fault comes with the number of newlines counted before it. -/
  | faulty (faults : List (Nat × ScanFault))
  deriving Repr

/-- One item read off the front of a text. -/
structure Reading where
  item : Item
  /-- The characters read. -/
  taken : List Char
  /-- The newlines counted among them. -/
  newlines : Nat
  /-- The characters left. -/
  rest : List Char
  deriving Repr

/-- The inside of a string, read up to its closing quote or to the end of the text. -/
structure StringBody where
  /-- The text the string stands for. -/
  text : List Char := []
  /-- The characters read, the closing quote included. -/
  taken : List Char := []
  newlines : Nat := 0
  faults : List (Nat × ScanFault) := []
  closed : Bool := false
  rest : List Char := []
  deriving Repr

namespace StringBody

/-- Put characters in front of a string body that stand for `c`. -/
def push (body : StringBody) (read : List Char) (c : Char) : StringBody :=
  { body with text := c :: body.text, taken := read ++ body.taken }

/-- Put a counted newline in front of a string body. -/
def pushNewline (body : StringBody) : StringBody :=
  { body with
    text := '\n' :: body.text
    taken := '\n' :: body.taken
    newlines := body.newlines + 1
    faults := body.faults.map fun (n, fault) => (n + 1, fault) }

/-- Put a fault in front of a string body. -/
def pushFault (body : StringBody) (fault : ScanFault) : StringBody :=
  { body with faults := (0, fault) :: body.faults }

end StringBody

/-- The character that a backslash before `c` stands for. -/
def unescape? : Char → Option Char
  | 'n' => some '\n'
  | 't' => some '\t'
  | 'r' => some '\r'
  | '0' => some '\x00'
  | '"' => some '"'
  | '\\' => some '\\'
  | _ => none

/-- Read the inside of a string.  A backslash takes the next character with it; at the end of the
text there is none, and the escape counts as one of NUL. -/
def stringBody : List Char → StringBody
  | [] => { faults := [(0, .unterminatedString)] }
  | '\\' :: [] =>
    { taken := ['\\'], faults := [(0, .unknownEscape '\x00'), (0, .unterminatedString)] }
  | '\\' :: c :: cs =>
    match unescape? c with
    | some meant => (stringBody cs).push ['\\', c] meant
    | none => ((stringBody cs).push ['\\', c] c).pushFault (.unknownEscape c)
  | c :: cs =>
    if c == '"' then { taken := ['"'], closed := true, rest := cs }
    else if c == '\n' then (stringBody cs).pushNewline
    else (stringBody cs).push [c] c

/-- Read a string behind its opening quote. -/
def scanString (cs : List Char) : Reading :=
  let body := stringBody cs
  let item :=
    if body.closed && body.faults.isEmpty then
      .token .string (some (.str (String.ofList body.text)))
    else .faulty body.faults
  ⟨item, '"' :: body.taken, body.newlines, body.rest⟩

/-- Read a number whose first digit is `c`.  A point belongs to the number only before a digit, so
that `0..10` is a range. -/
def scanNumber (c : Char) (cs : List Char) : Reading :=
  let whole := c :: cs.takeWhile Char.isDigit
  let rest := cs.dropWhile Char.isDigit
  let integer : Reading :=
    let item := match Numeral.signedDigits? false whole with
      | some n => .token .integer (some (.int n))
      | none => .faulty [(0, .integerTooLarge (String.ofList whole))]
    ⟨item, whole, 0, rest⟩
  match rest with
  | '.' :: d :: more =>
    if d.isDigit then
      let fraction := d :: more.takeWhile Char.isDigit
      let value := Numeral.ofParts false whole fraction 0
      ⟨.token .real (some (.real value)), whole ++ '.' :: fraction, 0, more.dropWhile Char.isDigit⟩
    else integer
  | _ => integer

/-- Read an identifier or a reserved word whose first letter is `c`. -/
def scanWord (c : Char) (cs : List Char) : Reading :=
  let word := c :: cs.takeWhile isWordChar
  let item := match Keyword.ofText? (String.ofList word) with
    | some k => .token (.keyword k) k.literal?
    | none => .token .identifier none
  ⟨item, word, 0, cs.dropWhile isWordChar⟩

/-- A symbol read from the characters `taken`. -/
def symbolReading (s : Symbol) (taken rest : List Char) : Reading :=
  ⟨.token (.symbol s) none, taken, 0, rest⟩

/-- The symbols of one character that begin no longer symbol. -/
def singleSymbol? : Char → Option Symbol
  | '(' => some .leftParen
  | ')' => some .rightParen
  | '\x7b' => some .leftBrace
  | '\x7d' => some .rightBrace
  | '[' => some .leftBracket
  | ']' => some .rightBracket
  | ',' => some .comma
  | ':' => some .colon
  | ';' => some .semicolon
  | '+' => some .plus
  | '%' => some .percent
  | '&' => some .ampersand
  | '|' => some .pipe
  | '^' => some .caret
  | '~' => some .tilde
  | _ => none

def doubleSymbol? : Char → Char → Option Symbol
  | '.', '.' => some .dotDot
  | '*', '*' => some .starStar
  | '-', '>' => some .arrow
  | '!', '=' => some .bangEqual
  | '=', '=' => some .equalEqual
  | '=', '>' => some .fatArrow
  | '<', '=' => some .lessEqual
  | '<', '<' => some .lessLess
  | '>', '=' => some .greaterEqual
  | '>', '>' => some .greaterGreater
  | _, _ => none

/-- The symbols of one character that also begin a symbol of two, the `!` apart. -/
def shortSymbol? : Char → Option Symbol
  | '.' => some .dot
  | '*' => some .star
  | '-' => some .minus
  | '=' => some .equal
  | '<' => some .less
  | '>' => some .greater
  | '/' => some .slash
  | _ => none

/-- Read one character that begins no symbol of two characters, or what follows from it. -/
def scanSingle (c : Char) (cs : List Char) : Reading :=
  match singleSymbol? c with
  | some s => symbolReading s [c] cs
  | none =>
    match shortSymbol? c with
    | some s => symbolReading s [c] cs
    | none =>
      if c == '!' then ⟨.faulty [(0, .loneBang)], [c], 0, cs⟩
      else if c == ' ' || c == '\r' || c == '\t' then ⟨.blank, [c], 0, cs⟩
      else if c == '\n' then ⟨.blank, [c], 1, cs⟩
      else if c == '"' then scanString cs
      else if c.isDigit then scanNumber c cs
      else if isLetter c then scanWord c cs
      else ⟨.faulty [(0, .unexpected c)], [c], 0, cs⟩

/-- Read the item that begins with `c`. -/
def scanNext (c : Char) (cs : List Char) : Reading :=
  match cs with
  | [] => scanSingle c []
  | d :: more =>
    match doubleSymbol? c d with
    | some s => symbolReading s [c, d] more
    | none =>
      if c == '/' && d == '/' then
        ⟨.blank, c :: d :: more.takeWhile (· != '\n'), 0, more.dropWhile (· != '\n')⟩
      else scanSingle c cs

/-! ### Every item takes at least one character -/

theorem length_dropWhile_le {α : Type} (p : α → Bool) (xs : List α) :
    (xs.dropWhile p).length ≤ xs.length :=
  (List.dropWhile_suffix p).length_le

theorem length_rest_stringBody (cs : List Char) : (stringBody cs).rest.length ≤ cs.length := by
  fun_induction stringBody cs with
  | case1 => simp
  | case2 => simp
  | case3 c cs meant h ih => simp only [StringBody.push, List.length_cons]; omega
  | case4 c cs h ih =>
    simp only [StringBody.pushFault, StringBody.push, List.length_cons]; omega
  | case5 => simp
  | case6 c cs _ _ _ ih => simp only [StringBody.pushNewline, List.length_cons]; omega
  | case7 c cs _ _ _ ih => simp only [StringBody.push, List.length_cons]; omega

theorem length_rest_scanNumber (c : Char) (cs : List Char) :
    (scanNumber c cs).rest.length ≤ cs.length := by
  have whole := length_dropWhile_le Char.isDigit cs
  unfold scanNumber
  dsimp only
  split
  · rename_i d more h
    split
    · have := length_dropWhile_le Char.isDigit more
      rw [h] at whole
      simp only [List.length_cons] at whole
      dsimp only
      omega
    · exact whole
  · exact whole

theorem length_rest_scanSingle (c : Char) (cs : List Char) :
    (scanSingle c cs).rest.length ≤ cs.length := by
  unfold scanSingle
  split
  · exact Nat.le_refl _
  · split
    · exact Nat.le_refl _
    · repeat' split
      all_goals first
        | exact Nat.le_refl _
        | exact length_rest_stringBody cs
        | exact length_rest_scanNumber c cs
        | exact length_dropWhile_le isWordChar cs

theorem length_rest_scanNext (c : Char) (cs : List Char) :
    (scanNext c cs).rest.length ≤ cs.length := by
  unfold scanNext
  split
  · exact length_rest_scanSingle c []
  · rename_i d more
    split
    · exact Nat.le_succ _
    · split
      · exact Nat.le_succ_of_le (length_dropWhile_le _ more)
      · exact length_rest_scanSingle c (d :: more)

/-! ### Whole texts -/

/-- What a text holds: its tokens without the end mark, its faults and the number of its last
line. -/
structure Scanned where
  tokens : List Token
  errors : List SyntaxError
  lastLine : UInt32
  deriving Repr

/-- Read a text whose first character stands on line `line`.  Lines are counted with 32 bits, and
begin again at zero when these are used up. -/
def scanFrom (line : UInt32) : List Char → Scanned
  | [] => ⟨[], [], line⟩
  | c :: cs =>
    let reading := scanNext c cs
    let later := scanFrom (line + .ofNat reading.newlines) reading.rest
    match reading.item with
    | .blank => later
    | .token kind literal =>
      let token : Token :=
        ⟨kind, String.ofList reading.taken, literal, line + .ofNat reading.newlines⟩
      { later with tokens := token :: later.tokens }
    | .faulty faults =>
      let errors := faults.map fun (n, fault) => ⟨line + .ofNat n, .scanning fault⟩
      { later with errors := errors ++ later.errors }
termination_by cs => cs.length
decreasing_by
  have := length_rest_scanNext c cs
  simp only [List.length_cons]
  omega

/-- Cut a text into its tokens, the end mark behind them, or report all its scanning faults. -/
def scan (source : String) : Except (List SyntaxError) (List Token) :=
  let scanned := scanFrom 1 source.toList
  if scanned.errors.isEmpty then .ok (scanned.tokens ++ [endOfInput scanned.lastLine])
  else .error scanned.errors

end Classlet.Token
