import Classlet.Proofs.Error.Handlers
import Classlet.Proofs.Operation.Negation
import Classlet.Proofs.Token.Reads

/-! # Texts that read back

What is written for a string or an integer is a literal of that value.  A quoted string scans as one
token that stands for the string (`Token.scan_quoted`), and the text of an integer that is not
negative as one that stands for the integer (`Token.scan_ofInt`).  A call of `str` with an integer
makes its text, and a call of `int` with that text makes the integer again, whatever its sign is
(`callValue_str_int`, `callValue_int_text`). -/

namespace Classlet

open Eval

/-! ### Scanning what is written -/

namespace Token

theorem scan_quoted {text : String} (h : text.toList.all Text.isWritable = true) :
    scan (Text.quote text) =
      .ok [⟨.string, Text.quote text, some (.str text), 1⟩, endOfInput 1] :=
  (reads_quoted h).scan_eq trivial

theorem scan_ofInt {n : Int64} (hn : 0 ≤ n.toInt) : scan (Numeral.ofInt n.toInt) =
    .ok [⟨.integer, Numeral.ofInt n.toInt, some (.int n), 1⟩, endOfInput 1] :=
  (reads_integer hn).scan_eq ends_nil

end Token

/-! ### Texts without blanks -/

namespace Text

theorem dropWhile_isBlank {cs : List Char} (h : ∀ c ∈ cs, isBlank c = false) :
    cs.dropWhile isBlank = cs := by
  cases cs with
  | nil => rfl
  | cons c cs => rw [List.dropWhile_cons, h c List.mem_cons_self]; rfl

theorem trim_of_not_blank {text : String} (h : ∀ c ∈ text.toList, isBlank c = false) :
    trim text = text := by
  have hreverse : ∀ c ∈ text.toList.reverse, isBlank c = false :=
    fun c hc => h c (List.mem_reverse.mp hc)
  rw [trim, trimChars, dropWhile_isBlank h, dropWhile_isBlank hreverse, List.reverse_reverse,
    String.ofList_toList]

theorem isBlank_of_isDigit {c : Char} (h : c.isDigit = true) : isBlank c = false := by
  simp only [Char.isDigit, Bool.and_eq_true, decide_eq_true_eq, UInt32.le_iff_toNat_le] at h
  obtain ⟨hlow, hhigh⟩ : 48 ≤ c.toNat ∧ c.toNat ≤ 57 := h
  simp only [isBlank, Bool.or_eq_false_iff, Bool.and_eq_false_iff, beq_eq_false_iff_ne,
    decide_eq_false_iff_not]
  omega

theorem trim_ofInt (n : Int) : trim (Numeral.ofInt n) = Numeral.ofInt n := by
  refine trim_of_not_blank fun c hc => ?_
  rcases Numeral.mem_ofInt hc with rfl | hdigit
  · rfl
  · exact isBlank_of_isDigit hdigit

end Text

/-! ### Calls of the classes of integers and texts -/

section calls
variable (e : Engine) {s : State}

/-- A class without a base and without attributes makes values by its construction. -/
theorem callValue_of_construction {c : ClassRef} {construction : Construction}
    (hbase : (s.memory.classInfo c).base = none)
    (hattributes : (s.memory.classInfo c).attributes = [])
    (hconstruction : (s.memory.classInfo c).construction = some construction)
    (arguments : List Value) (keywords : KeywordValues) :
    callValue e (.ofClass c) false arguments keywords s =
      construct e construction c arguments keywords s := by
  have hchain : s.memory.chain c = [c] := by rw [Memory.chain_eq, hbase]; rfl
  have hinit : s.memory.findAttribute? c "init" = none := by
    rw [Memory.findAttribute?, hchain, List.findSome?_singleton, hattributes, Bindings.get?_nil]
  have hfound : s.memory.findConstruction? c = some construction := by
    rw [Memory.findConstruction?, hchain, List.findSome?_singleton, hconstruction]
  simp only [callValue, instantiate, bind_apply, readMemory, hinit, hfound]

theorem Memory.display_int (m : Memory) (n : Int64) :
    m.display (.int n) = Numeral.ofInt n.toInt := rfl

theorem construct_int (c : ClassRef) (v : Value) :
    construct e .int c [v] [] s = makeInt e v s := rfl

theorem construct_str (c : ClassRef) (v : Value) : construct e .str c [v] [] s =
    (strOperation e v >>= fun text => pure (.str text)) s := rfl

variable (hs : Memory.initial.Keeps s.memory)
include hs

theorem callValue_str_int (n : Int64) :
    callValue e (.ofClass .str) false [.int n] [] s =
      (.ok (.str (Numeral.ofInt n.toInt)), s) := by
  have hinfo : s.memory.classInfo .str = Memory.initial.classInfo .str :=
    hs.classInfo_eq (by decide)
  have hconstruction : (s.memory.classInfo .str).construction = some .str := by rw [hinfo]; rfl
  rw [callValue_of_construction e (by rw [hinfo]; rfl) (by rw [hinfo]; rfl) hconstruction,
    construct_str]
  rfl

theorem callValue_int_text (n : Int64) :
    callValue e (.ofClass .int) false [.str (Numeral.ofInt n.toInt)] [] s =
      (.ok (.int n), s) := by
  have hinfo : s.memory.classInfo .int = Memory.initial.classInfo .int :=
    hs.classInfo_eq (by decide)
  have hread : Numeral.readInt? (Text.trim (Numeral.ofInt n.toInt)) = some n := by
    rw [Text.trim_ofInt, Numeral.readInt_ofInt]
  have hconstruction : (s.memory.classInfo .int).construction = some .int := by rw [hinfo]; rfl
  rw [callValue_of_construction e (by rw [hinfo]; rfl) (by rw [hinfo]; rfl) hconstruction,
    construct_int]
  simp only [makeInt, hread, pure_apply]

end calls

/-- **What is written reads back.**  The quoted text of a string of printable ASCII characters and
of those that have an escape of their own is one string token, which stands for the string.  In
every state that has the built-in classes, `str` makes the text of an integer, and `int` makes the
integer of that text.  The text of an integer that is not negative is one integer token, which
stands for it. -/
theorem literals_read_back (m : Memory) :
    (∀ text : String, text.toList.all Text.isWritable = true →
      Token.scan (m.quoted (.str text)) = .ok
        [⟨.string, m.quoted (.str text), some (.str text), 1⟩, Token.endOfInput 1]) ∧
    (∀ (e : Engine) (s : State), Memory.initial.Keeps s.memory → ∀ n : Int64,
      callValue e (.ofClass .str) false [.int n] [] s = (.ok (.str (m.display (.int n))), s) ∧
      callValue e (.ofClass .int) false [.str (m.display (.int n))] [] s = (.ok (.int n), s)) ∧
    (∀ n : Int64, 0 ≤ n → Token.scan (m.display (.int n)) = .ok
      [⟨.integer, m.display (.int n), some (.int n), 1⟩, Token.endOfInput 1]) := by
  refine ⟨fun text htext => Token.scan_quoted htext, fun e s hs n => ?_, fun n hn => ?_⟩
  · rw [m.display_int]
    exact ⟨callValue_str_int e hs n, callValue_int_text e hs n⟩
  · rw [m.display_int]
    exact Token.scan_ofInt (Int64.le_iff_toInt_le.mp hn)

/-- A string with all escapes, in which a digit follows a NUL. -/
def escapedString : String := "a\"b\\c\n\t\r\x000"

theorem literals_read_back_both_ends :
    escapedString.toList.all Text.isWritable = true ∧
    Token.scan "\"a\\\"b\\\\c\\n\\t\\r\\00\"" = .ok
      [⟨.string, "\"a\\\"b\\\\c\\n\\t\\r\\00\"", some (.str escapedString), 1⟩,
        Token.endOfInput 1] ∧
    Memory.initial.Keeps State.initial.memory ∧
    callValue (engine {} (fun _ => .unknown) 0) (.ofClass .int) false
      [.str "-9223372036854775808"] [] .initial = (.ok (.int Int64.minValue), .initial) ∧
    0 ≤ Int64.maxValue ∧
    Token.scan "9223372036854775807" = .ok
      [⟨.integer, "9223372036854775807", some (.int Int64.maxValue), 1⟩, Token.endOfInput 1] := by
  have hwritable : escapedString.toList.all Text.isWritable = true := by decide
  have hs := grown_initial.memory
  have hmax : 0 ≤ Int64.maxValue := by decide
  have hleast : Memory.initial.display (.int Int64.minValue) = "-9223372036854775808" := by
    decide +kernel
  have hgreatest : Memory.initial.display (.int Int64.maxValue) = "9223372036854775807" := by
    decide +kernel
  obtain ⟨hquoted, hint, hscan⟩ := literals_read_back .initial
  obtain ⟨-, hread⟩ := hint (engine {} (fun _ => .unknown) 0) .initial hs Int64.minValue
  have htoken := hscan Int64.maxValue hmax
  rw [hleast] at hread
  rw [hgreatest] at htoken
  exact ⟨hwritable, hquoted escapedString hwritable, hs, hread, hmax, htoken⟩

end Classlet
