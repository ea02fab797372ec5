import Classlet.Interpreter.State
import Classlet.Numeral.Read

/-! # Operators

A binary operator first asks the left operand whether it implements the operation for the right
one.  When it does not, and the operands are of different classes, the right operand is asked for
the mirrored operation.  Instances take part through the operators that their class defines,
which are attributes under the names `operatorKey` gives; a user operator that returns `nil` does
not implement the operation.

Numbers are ordered by rank: `bool`, `int`, `real`.  A number handles arithmetic with numbers of
at most its own rank. -/

namespace Classlet

open Eval

/-! ### Names of operators -/

/-- The attribute under which a class stores an operator. -/
def operatorKey (symbol : String) : String := "operator " ++ symbol

/-- The attribute of a binary operator. -/
def BinaryOp.key (op : BinaryOp) : String := operatorKey op.symbol

/-- The attribute of a unary operator. -/
def UnaryOp.key : UnaryOp → String
  | neg => operatorKey "neg"
  | pos => operatorKey "pos"
  | invert => operatorKey "~"

def Conversion.key (c : Conversion) : String := operatorKey c.word

/-- The attribute of the operator that reads an element. -/
def indexKey : String := operatorKey "[]"

/-- The attribute of the operator that stores an element. -/
def setIndexKey : String := operatorKey "[]="

/-- Whether a value is a proper result of a conversion. -/
def Conversion.accepts : Conversion → Value → Bool
  | .len, .int _ | .int, .int _ | .bool, .bool _ | .str, .str _ | .repr, .str _ => true
  | _, _ => false

/-! ### Numbers -/

namespace Arithmetic

/-- An integer result, unless it is out of range. -/
def checked (n : Int) : Except Cause Value :=
  match Numeral.int64? n with
  | some k => .ok (.int k)
  | none => .error .overflow

/-- The answer of a comparison operator to an ordering. -/
def compareAs (op : BinaryOp) (o : Ordering) : Option Bool :=
  match op with
  | .eq => some (o == .eq)
  | .ne => some (o != .eq)
  | .lt => some (o == .lt)
  | .le => some (o != .gt)
  | .gt => some (o == .gt)
  | .ge => some (o != .lt)
  | _ => none

def shiftAmount (n : Int64) : Except Cause Nat :=
  let k := n.toInt
  if 0 ≤ k && k < 64 then .ok k.toNat else .error (.shiftCount n)

/-- The power of an integer to a natural number, unless it is out of range.  Beyond the exponent
`64` only the powers of `-1`, `0` and `1` are in range, and exponents of more than 32 bits are
refused. -/
def power (base : Int) (exponent : Nat) : Except Cause Value :=
  if Numeral.twoTo 32 ≤ exponent then .error .overflow
  else if base.natAbs ≤ 1 then
    checked (if exponent = 0 then 1 else if exponent % 2 = 0 then base * base else base)
  else if 64 ≤ exponent then .error .overflow
  else checked (Int.pow base exponent)

/-- The remainder of a division, unless the divisor is zero or the quotient is out of range. -/
def remainder? (a b : Int64) : Option Int64 :=
  if b = 0 ∨ a = Int64.minValue ∧ b = -1 then none else some (a % b)

/-- A shift to the left within 64 bits: what leaves them is lost, and only the last six bits of
the count take part. -/
def wrappingShl (a : Int64) (k : Nat) : Int64 := Int64.ofBitVec (a.toBitVec <<< (k % 64))

/-- A shift to the right that repeats the sign. -/
def signedShr (a : Int64) (k : Nat) : Int64 := Int64.ofBitVec (a.toBitVec.sshiftRight k)

/-- A shift to the left, refused unless the shift back gives the operand again. -/
def shiftLeft (a : Int64) (k : Nat) : Except Cause Value :=
  let shifted := wrappingShl a k
  if signedShr shifted k = a then .ok (.int shifted) else .error .overflow

def onInts (op : BinaryOp) (a b : Int64) : Except Cause (Option Value) :=
  let x := a.toInt
  let y := b.toInt
  match op with
  | .add => (checked (x + y)).map some
  | .sub => (checked (x - y)).map some
  | .mul => (checked (x * y)).map some
  | .div => if y = 0 then .error .divisionByZero else (checked (x.tdiv y)).map some
  -- there is no remainder only for the least integer and `-1`, and then it would be zero
  | .mod => if y = 0 then .error .divisionByZero else .ok (some (.int ((remainder? a b).getD 0)))
  | .pow =>
    if 0 ≤ y then (power x y.toNat).map some
    else if x = 0 then .error .divisionByZero
    else .ok (some (.real (Float.pow a.toFloat b.toFloat)))
  | .shl => do
    let k ← shiftAmount b
    let v ← shiftLeft a k
    .ok (some v)
  | .shr => do
    let k ← shiftAmount b
    .ok (some (.int (signedShr a k)))
  | .bitAnd => .ok (some (.int (a &&& b)))
  | .bitOr => .ok (some (.int (a ||| b)))
  | .bitXor => .ok (some (.int (a ^^^ b)))
  | op => .ok ((compareAs op (compare x y)).map .bool)

def onReals (op : BinaryOp) (a b : Float) : Except Cause (Option Value) :=
  match op with
  | .add => .ok (some (.real (a + b)))
  | .sub => .ok (some (.real (a - b)))
  | .mul => .ok (some (.real (a * b)))
  | .div => if b == 0.0 then .error .divisionByZero else .ok (some (.real (a / b)))
  | .mod =>
    if b == 0.0 then .error .divisionByZero else .ok (some (.real (Binary64.remainder a b)))
  | .pow =>
    if a == 0.0 && b < 0.0 then .error .divisionByZero
    else if a < 0.0 && ((Binary64.ofFloat b).integral?).isNone then .error .fractionalPower
    else .ok (some (.real (Float.pow a b)))
  | .eq => .ok (some (.bool (a == b)))
  | .ne => .ok (some (.bool (a != b)))
  | .lt => .ok (some (.bool (a < b)))
  | .le => .ok (some (.bool (a ≤ b)))
  | .gt => .ok (some (.bool (a > b)))
  | .ge => .ok (some (.bool (a ≥ b)))
  | _ => .ok none

def rank? : Value → Option Nat
  | .bool _ => some 0
  | .int _ => some 1
  | .real _ => some 2
  | _ => none

/-- Whether `owner` handles arithmetic with `other`. -/
def owns (owner other : Value) : Bool :=
  match rank? owner, rank? other with
  | some a, some b => b ≤ a
  | _, _ => false

/-- A truth value as an integer. -/
def ofBool (b : Bool) : Int64 := if b then 1 else 0

def toInt : Value → Int64
  | .bool b => ofBool b
  | .int n => n
  | _ => 0

def toReal : Value → Float
  | .real x => x
  | v => (toInt v).toFloat

/-- An operator on two numbers. -/
def numeric (op : BinaryOp) (left right : Value) : Except Cause (Option Value) :=
  match left, right with
  | .bool a, .bool b =>
    match op with
    | .bitAnd => .ok (some (.bool (a && b)))
    | .bitOr => .ok (some (.bool (a || b)))
    | .bitXor => .ok (some (.bool (a != b)))
    | _ => onInts op (ofBool a) (ofBool b)
  | .real _, _ | _, .real _ => onReals op (toReal left) (toReal right)
  | _, _ => onInts op (toInt left) (toInt right)

end Arithmetic

/-! ### Repetition -/

/-- The greatest length of a repeated sequence. -/
def maxRepeatLength : Nat := Numeral.twoTo 28

/-- The number of copies in a repetition of a sequence of a given length. -/
def copies (length : Nat) (times : Int64) : Except Cause Nat :=
  let n := times.toInt.toNat
  if length * n ≤ maxRepeatLength then .ok n else .error .repetitionTooLong

/-- A text followed by `n` copies of `s`. -/
def repeatText (s : String) : Nat → String → String
  | 0, acc => acc
  | n + 1, acc => repeatText s n (acc ++ s)

/-- Values followed by `n` copies of `vs`. -/
def repeatValues (vs : Array Value) : Nat → Array Value → Array Value
  | 0, acc => acc
  | n + 1, acc => repeatValues vs n (acc ++ vs)

/-- `times` copies of a text. -/
def repeated (s : String) (times : Int64) : Except Cause Value :=
  (copies s.utf8ByteSize times).map fun n => .str (if s.isEmpty then "" else repeatText s n "")

def repeatedValues (vs : Array Value) (times : Int64) : Except Cause (Array Value) :=
  (copies vs.size times).map fun n => if vs.isEmpty then #[] else repeatValues vs n #[]

/-! ### Conversions -/

variable (e : Engine)

def newList (vs : Array Value) : Eval Value := do
  let l ← remember fun m => m.newList vs
  pure (.list l)

def classAttribute? (i : InstanceRef) (name : String) : Eval (Option Value) :=
  readMemory fun m => m.findAttribute? i.ofClass name

/-- The result of the conversion that the class of an instance defines, if it defines it. -/
def userConversion (i : InstanceRef) (conversion : Conversion) : Eval (Option Value) := do
  match ← classAttribute? i conversion.key with
  | none => pure none
  | some method =>
    let result ← e.callMethod method (.instance i) []
    if conversion.accepts result then pure (some result)
    else
      let (className, got) ← readMemory fun m => (m.typeName (.instance i), m.typeName result)
      fail (.conversionResult conversion className got)

/-- Apply a conversion that the value has to define. -/
def convert (v : Value) (conversion : Conversion) : Eval Value := do
  let result ← match v with
    | .instance i => userConversion e i conversion
    | _ => pure none
  match result with
  | some w => pure w
  | none => failWithType v (.noConversion conversion)

/-- Whether a value counts as true. -/
def truthy (v : Value) : Eval Bool :=
  match v with
  | .nil => pure false
  | .bool b => pure b
  | .int n => pure (n != 0)
  | .real x => pure (x != 0.0)
  | .str s => pure (!s.isEmpty)
  | .list l => readMemory fun m => !(m.elements l).isEmpty
  | .tuple vs => pure (!vs.isEmpty)
  | .instance i => do
    match ← userConversion e i .bool with
    | some (.bool b) => pure b
    | _ => pure true
  | _ => pure true

def length (v : Value) : Eval Int64 :=
  match v with
  | .str s => pure (Int64.ofNat s.length)
  | .list l => readMemory fun m => Int64.ofNat (m.elements l).size
  | .tuple vs => pure (Int64.ofNat vs.length)
  | .instance i => do
    match ← userConversion e i .len with
    | some (.int n) => pure n
    | _ => failWithType v .noLength
  | _ => failWithType v .noLength

/-! ### Binary operators -/

/-- `nil` equals itself only, and can be compared with anything. -/
def nilEquality (op : BinaryOp) (other : Value) : Option Value :=
  match op with
  | .eq => some (.bool other.isNil)
  | .ne => some (.bool (!other.isNil))
  | _ => none

def equalElements (a b : Value) : Eval Bool := do
  let result ← e.binary .eq a b
  truthy e result

/-- Whether two sequences of the same length have equal elements. -/
def allEqual : List Value → List Value → Eval Bool
  | a :: as, b :: bs => do
    if ← equalElements e a b then allEqual as bs else pure false
  | _, _ => pure true

/-- The answer of an ordering operator at the first elements that differ. -/
def orderAtDifference (op : BinaryOp) : List Value → List Value → Eval (Option Value)
  | a :: as, b :: bs => do
    if ← equalElements e a b then orderAtDifference op as bs
    else
      let result ← e.binary op a b
      pure (some result)
  | _, _ => pure none

/-- An operator on two sequences of a kind that `make` builds. -/
def onSequences (op : BinaryOp) (left right : List Value) (make : List Value → Eval Value) :
    Eval (Option Value) :=
  match op with
  | .add => do
    let v ← make (left ++ right)
    pure (some v)
  | .eq | .ne => do
    let same ← if left.length = right.length then allEqual e left right else pure false
    pure (some (.bool (same == (op == .eq))))
  | .lt | .le | .gt | .ge => do
    match ← orderAtDifference e op left right with
    | some v => pure (some v)
    | none => pure ((Arithmetic.compareAs op (compare left.length right.length)).map .bool)
  | _ => pure none

/-- A new list value from a list of values. -/
def newListOf (vs : List Value) : Eval Value := newList vs.toArray

def repeatedList (l : ListRef) (n : Int64) : Eval (Option Value) := do
  let vs ← ofExcept (repeatedValues (← readMemory fun m => m.elements l) n)
  let v ← newList vs
  pure (some v)

def repeatedTuple (vs : List Value) (n : Int64) : Eval (Option Value) := do
  let vs ← ofExcept (repeatedValues vs.toArray n)
  pure (some (.tuple vs.toList))

/-- The operation as the built-in left operand implements it. -/
def builtinBinary (op : BinaryOp) (left right : Value) : Eval (Option Value) :=
  if left.isNil then pure (nilEquality op right)
  else if Arithmetic.owns left right then ofExcept (Arithmetic.numeric op left right)
  else
    match left, right with
    | .str a, .str b =>
      if op = .add then pure (some (.str (a ++ b)))
      else pure ((Arithmetic.compareAs op (compare a b)).map .bool)
    | .str a, .int n =>
      if op = .mul then ofExcept ((repeated a n).map some) else pure none
    | .list a, .list b => do
      let (as, bs) ← readMemory fun m => ((m.elements a).toList, (m.elements b).toList)
      onSequences e op as bs newListOf
    | .list a, .int n => if op = .mul then repeatedList a n else pure none
    | .tuple as, .tuple bs => onSequences e op as bs fun vs => pure (.tuple vs)
    | .tuple as, .int n => if op = .mul then repeatedTuple as n else pure none
    | _, _ => pure none

/-- The operation as the built-in right operand implements it; the operands keep their order. -/
def builtinReversed (op : BinaryOp) (left right : Value) : Eval (Option Value) :=
  if right.isNil then pure (nilEquality op left)
  else if Arithmetic.owns right left then ofExcept (Arithmetic.numeric op left right)
  else
    match left, right with
    | .int n, .str b =>
      if op = .mul then ofExcept ((repeated b n).map some) else pure none
    | .int n, .list b => if op = .mul then repeatedList b n else pure none
    | .int n, .tuple bs => if op = .mul then repeatedTuple bs n else pure none
    | _, _ => pure none

def notNil (v : Value) : Option Value := if v.isNil then none else some v

/-- The operation as the class of an instance defines it. -/
def definedBinary (op : BinaryOp) (i : InstanceRef) (other : Value) :
    Eval (Option (Option Value)) := do
  match ← classAttribute? i op.key with
  | some method =>
    let result ← e.callMethod method (.instance i) [other]
    pure (some (notNil result))
  | none => pure none

/-- The operation as an instance implements it.  Without an operator of its own, `!=` is the
negation of the `==` that the class defines. -/
def userBinary (op : BinaryOp) (i : InstanceRef) (other : Value) : Eval (Option Value) := do
  match ← definedBinary e op i other with
  | some result => pure result
  | none =>
    if op = .ne then
      match ← definedBinary e .eq i other with
      | some (some equal) =>
        let b ← truthy e equal
        pure (some (.bool (!b)))
      | _ => pure none
    else pure none

/-- The answer of the left operand. -/
def probe (op : BinaryOp) (left right : Value) : Eval (Option Value) :=
  match left with
  | .instance i => userBinary e op i right
  | _ => builtinBinary e op left right

/-- The answer of the right operand. -/
def probeReversed (op : BinaryOp) (left right : Value) : Eval (Option Value) :=
  match right with
  | .instance i =>
    match op.mirrored? with
    | some mirrored => userBinary e mirrored i left
    | none => pure none
  | _ => builtinReversed op left right

/-- Identity of references of the same kind; other values have none. -/
def identical? (left right : Value) : Option Bool :=
  match left, right with
  | .instance a, .instance b => some (a = b)
  | .ofClass a, .ofClass b => some (a = b)
  | .module a, .module b => some (a = b)
  | .function a, .function b => some (a = b)
  | .builtin a, .builtin b => some (a = b)
  | .method a, .method b => some (a = b)
  | _, _ => if left.isFunction && right.isFunction then some false else none

def binaryOperation (op : BinaryOp) (left right : Value) : Eval Value := do
  match ← probe e op left right with
  | some v => pure v
  | none =>
    match ← if left.sameClass right then pure none else probeReversed e op left right with
    | some v => pure v
    | none =>
      match op, identical? left right with
      | .eq, some same => pure (.bool same)
      | .ne, some same => pure (.bool (!same))
      | _, _ =>
        let (l, r) ← readMemory fun m => (m.typeName left, m.typeName right)
        fail (.unsupportedOperands op l r)

/-- Whether two values are equal, as the language sees it. -/
def equals (left right : Value) : Eval Bool := do
  let result ← binaryOperation e .eq left right
  truthy e result

/-! ### Unary operators -/

def unaryOperation (op : UnaryOp) (v : Value) : Eval Value := do
  let result ← match op, v with
    | _, .instance i => do
      match ← classAttribute? i op.key with
      | some method =>
        let result ← e.callMethod method v []
        pure (notNil result)
      | none => pure none
    | .neg, .int n => ofExcept ((Arithmetic.checked (-n.toInt)).map some)
    | .neg, .real x => pure (some (.real (-x)))
    | .neg, .bool b => pure (some (.int (-(Arithmetic.ofBool b))))
    | .pos, .int _ | .pos, .real _ => pure (some v)
    | .pos, .bool b => pure (some (.int (Arithmetic.ofBool b)))
    | .invert, .int n => pure (some (.int (~~~n)))
    | .invert, .bool b => pure (some (.int (~~~(Arithmetic.ofBool b))))
    | _, _ => pure none
  match result with
  | some w => pure w
  | none => failWithType v (.badOperand op)

/-! ### Sequences -/

/-- The position that an index means in a sequence of a given length; a negative one counts from the
end. -/
def position (kind : SequenceKind) (length : Nat) (i : Int64) : Except Cause Nat :=
  let k := if i.toInt < 0 then i.toInt + length else i.toInt
  if k < 0 || (length : Int) ≤ k then .error (.indexRange kind) else .ok k.toNat

/-- The position that an index value means. -/
def positionOf (kind : SequenceKind) (length : Nat) (index : Value) : Eval Nat :=
  match index with
  | .int i => ofExcept (position kind length i)
  | _ => failWithType index (.indexType kind)

/-- The element of an object at an index. -/
def indexOperation (object index : Value) : Eval Value :=
  match object with
  | .str s => do
    let cs := s.toList
    let i ← positionOf .str cs.length index
    pure (.str (String.ofList (cs[i]?.toList)))
  | .list l => do
    let size ← readMemory fun m => (m.elements l).size
    let i ← positionOf .list size index
    readMemory fun m => (m.elements l)[i]?.getD .nil
  | .tuple vs => do
    let i ← positionOf .tuple vs.length index
    pure (vs[i]?.getD .nil)
  | .instance j => do
    match ← classAttribute? j indexKey with
    | some method => e.callMethod method object [index]
    | none => failWithType object .notSubscriptable
  | _ => failWithType object .notSubscriptable

/-- A bound of a slice of a sequence of a given length; `nil` stands for an omitted one. -/
def sliceBound (length : Nat) (omitted : Nat) (bound : Value) : Eval Nat :=
  match bound with
  | .nil => pure omitted
  | .int i =>
    if i.toInt < 0 then pure (i.toInt + length).toNat else pure (min i.toInt.toNat length)
  | _ => failWithType bound .sliceBoundType

/-- Both bounds of a slice; a slice that ends before it starts is empty. -/
def sliceBounds (length : Nat) (start stop : Value) : Eval (Nat × Nat) := do
  let i ← sliceBound length 0 start
  let j ← sliceBound length length stop
  pure (i, max i j)

/-- The elements of an object between two bounds. -/
def sliceOperation (object start stop : Value) : Eval Value :=
  match object with
  | .str s => do
    let cs := s.toList
    let (i, j) ← sliceBounds cs.length start stop
    pure (.str (String.ofList ((cs.take j).drop i)))
  | .list l => do
    let size ← readMemory fun m => (m.elements l).size
    let (i, j) ← sliceBounds size start stop
    newList (← readMemory fun m => (m.elements l).extract i j)
  | .tuple vs => do
    let (i, j) ← sliceBounds vs.length start stop
    pure (.tuple ((vs.take j).drop i))
  | _ => failWithType object .notSliceable

/-- Store a value at an index of an object. -/
def setIndexOperation (object index value : Value) : Eval Unit :=
  match object with
  | .list l => do
    let size ← readMemory fun m => (m.elements l).size
    let i ← positionOf .list size index
    let w ← copied value
    remember fun m => ((), m.modifyList l fun vs => vs.setIfInBounds i w)
  | .instance j => do
    match ← classAttribute? j setIndexKey with
    | some method =>
      let _ ← e.callMethod method object [index, value]
      pure ()
    | none => failWithType object .noItemAssignment
  | _ => failWithType object .noItemAssignment

/-- The elements of an instance from position `i` on, `count` of them, read with its operator. -/
def elementsFrom (object : Value) : Nat → Nat → Eval (List Value)
  | 0, _ => pure []
  | count + 1, i => do
    let v ← indexOperation e object (.int (Int64.ofNat i))
    let more ← elementsFrom object count (i + 1)
    pure (v :: more)

def valueBytes : Nat := 24

/-- Make room for values before there are any.  Their bytes must have addresses of 63 bits. -/
def reserve (count : Nat) : Eval Unit :=
  if count * valueBytes < Numeral.twoTo 63 then pure () else stop .capacityOverflow

/-- The elements of a sequence, for unpacking and for making lists and tuples. -/
def elementsOf (v : Value) : Eval (List Value) :=
  match v with
  | .str s => pure (s.toList.map fun c => .str c.toString)
  | .list l => readMemory fun m => (m.elements l).toList
  | .tuple vs => pure vs
  | .instance i => do
    match ← classAttribute? i indexKey with
    | some _ =>
      let n ← length e v
      reserve n.toInt.toNat
      elementsFrom e v n.toInt.toNat 0
    | none => failWithType v .notIterable
  | _ => failWithType v .notIterable

/-! ### Texts -/

def reprAll : List Value → Eval (List String)
  | [] => pure []
  | v :: vs => do
    let s ← e.repr v
    let more ← reprAll vs
    pure (s :: more)

def sequenceText (v : Value) : Eval String :=
  match v with
  | .list l => do
    let texts ← reprAll e (← readMemory fun m => (m.elements l).toList)
    pure ("[" ++ Text.commas texts ++ "]")
  | .tuple vs => do
    let texts ← reprAll e vs
    pure (Text.tuple texts)
  | _ => readMemory fun m => m.display v

/-- The text that shows a value; texts are quoted. -/
def reprOperation (v : Value) : Eval String :=
  match v with
  | .str s => pure (Text.quote s)
  | .instance i => do
    match ← userConversion e i .repr with
    | some (.str s) => pure s
    | _ => readMemory fun m => m.display v
  | _ => sequenceText e v

/-- The text of a value, as it is printed. -/
def strOperation (v : Value) : Eval String :=
  match v with
  | .str s => pure s
  | .instance i => do
    match ← userConversion e i .str with
    | some (.str s) => pure s
    | _ => reprOperation e v
  | _ => sequenceText e v

end Classlet
