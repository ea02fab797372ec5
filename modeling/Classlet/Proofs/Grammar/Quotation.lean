import Classlet.Interpreter.State
import Classlet.Proofs.Grammar.WellFormed
import Classlet.Proofs.Token.Layout

/-! # Statements are quoted from their texts

The line of a statement is the line of a token (`parse_formedOn`), and the line of a token is that
of its last character, counted by newlines (`Token.Layout`).  That character is no blank
(`Token.exists_visible`), so that the line which `Text.lines` gives for this number is there, and is
not empty without the blanks around it (`Text.exists_line`).  So a trace quotes every statement of a
text from the text, if 32 bits can count its lines (`statements_are_quoted`). -/

namespace Classlet

/-! ### Lines of a text -/

namespace Text

variable {c x : Char} {cs : List Char}

theorem isBlank_eq_false (hlow : 0x20 < c.toNat) (hhigh : c.toNat < 0x85) : isBlank c = false := by
  simp only [isBlank, Bool.or_eq_false_iff, Bool.and_eq_false_iff, beq_eq_false_iff_ne,
    decide_eq_false_iff_not]
  omega

theorem mem_dropWhile_isBlank (hx : isBlank x = false) (h : x ∈ cs) : x ∈ cs.dropWhile isBlank := by
  rw [← List.takeWhile_append_dropWhile (p := isBlank) (l := cs), List.mem_append] at h
  refine h.resolve_left fun hblank => ?_
  rw [List.mem_takeWhile_imp hblank] at hx
  cases hx

/-- A text with a character that is no blank is not empty without the blanks around it. -/
theorem trim_ne_empty (hx : isBlank x = false) (h : x ∈ cs) : trim (String.ofList cs) ≠ "" := by
  have hmem : x ∈ trimChars cs := by
    refine List.mem_reverse.mpr (mem_dropWhile_isBlank hx (List.mem_reverse.mpr ?_))
    exact mem_dropWhile_isBlank hx h
  intro htrim
  rw [trim, String.toList_ofList] at htrim
  have hempty := congrArg String.toList htrim
  rw [String.toList_ofList] at hempty
  rw [hempty] at hmem
  cases hmem

theorem mem_dropReturn (hx : x ≠ '\r') (h : x ∈ cs) : x ∈ dropReturn cs := by
  unfold dropReturn
  split
  case isTrue hlast =>
    obtain ⟨front, rfl⟩ := List.getLast?_eq_some_iff.mp (beq_iff_eq.mp hlast)
    simpa [hx] using h
  case isFalse => exact h

/-- The characters that have been read of a line belong to the next line that is cut. -/
theorem linesFrom_mem (hx : x ≠ '\r') {line : List Char} (h : x ∈ line) (cs : List Char) :
    ∃ first ∈ (linesFrom line cs)[0]?, x ∈ first := by
  induction cs generalizing line with
  | nil =>
      have hne : line.isEmpty = false := by
        cases line with
        | nil => cases h
        | cons c line => rfl
      rw [linesFrom, hne]
      exact ⟨line.reverse, rfl, List.mem_reverse.mpr h⟩
  | cons c cs ih =>
      rw [linesFrom]
      split
      case isTrue => exact ⟨_, rfl, mem_dropReturn hx (List.mem_reverse.mpr h)⟩
      case isFalse => exact ih (List.mem_cons_of_mem c h)

/-- A character stands on the line that the newlines in front of it say. -/
theorem linesFrom_getElem? (hx : x ≠ '\r') (hnewline : x ≠ '\n') (line front back : List Char) :
    ∃ found ∈ (linesFrom line (front ++ x :: back))[front.count '\n']?, x ∈ found := by
  induction front generalizing line with
  | nil =>
      rw [List.nil_append, linesFrom, if_neg (by simpa using hnewline)]
      exact linesFrom_mem hx List.mem_cons_self back
  | cons c front ih =>
      rw [List.cons_append, linesFrom]
      split
      case isTrue hc =>
        obtain rfl : c = '\n' := beq_iff_eq.mp hc
        rw [List.count_cons_self, List.getElem?_cons_succ]
        exact ih []
      case isFalse hc =>
        rw [List.count_cons_of_ne (by simpa using hc)]
        exact ih (c :: line)

/-- The line of a character that is no blank, without the blanks around it. -/
theorem exists_line {source : String} {front back : List Char} (hx : isBlank x = false)
    (hsource : source.toList = front ++ x :: back) :
    ∃ line ∈ (lines source)[front.count '\n']?, trim line ≠ "" := by
  have hreturn : x ≠ '\r' := by
    rintro rfl
    cases hx
  have hnewline : x ≠ '\n' := by
    rintro rfl
    cases hx
  obtain ⟨line, hline, hmem⟩ := linesFrom_getElem? hreturn hnewline [] front back
  refine ⟨String.ofList line, ?_, trim_ne_empty hx hmem⟩
  rw [lines, hsource, List.getElem?_map, hline]
  rfl

end Text

/-! ### The end of a token -/

namespace Token

variable {c : Char} {cs : List Char} {kind : TokenKind} {literal : Option Literal}

/-- The last character is no blank. -/
def EndsVisibly (cs : List Char) : Prop := ∃ front x, cs = front ++ [x] ∧ Text.isBlank x = false

theorem EndsVisibly.append (h : EndsVisibly cs) (more : List Char) : EndsVisibly (more ++ cs) := by
  obtain ⟨front, x, rfl, hx⟩ := h
  exact ⟨more ++ front, x, (List.append_assoc more front [x]).symm, hx⟩

theorem endsVisibly_cons (h : ∀ d ∈ c :: cs, Text.isBlank d = false) : EndsVisibly (c :: cs) :=
  ⟨(c :: cs).dropLast, (c :: cs).getLast (List.cons_ne_nil c cs),
    (List.dropLast_concat_getLast _).symm, h _ (List.getLast_mem _)⟩

theorem isBlank_of_isWordChar (h : isWordChar c = true) : Text.isBlank c = false := by
  have hrange : 0x20 < c.toNat ∧ c.toNat < 0x85 := by
    simp only [isWordChar, isLetter, Char.isAlpha, Char.isUpper, Char.isLower, Char.isDigit,
      Bool.or_eq_true, Bool.and_eq_true, decide_eq_true_eq, beq_iff_eq, ge_iff_le,
      UInt32.le_iff_toNat_le, Char.reduceVal, UInt32.reduceToNat] at h
    rw [Char.toNat]
    rcases h with ((h | h) | rfl) | h
    · omega
    · omega
    · decide
    · omega
  exact Text.isBlank_eq_false hrange.1 hrange.2

theorem isBlank_of_isDigit (h : c.isDigit = true) : Text.isBlank c = false :=
  isBlank_of_isWordChar (by simp [isWordChar, h])

theorem isBlank_text (s : Symbol) : ∀ c ∈ s.text.toList, Text.isBlank c = false := by
  have hall : (s.text.toList.all fun c => !Text.isBlank c) = true := by cases s <;> rfl
  simpa using hall

theorem stringBody_endsVisibly (cs : List Char) (h : (stringBody cs).closed = true) :
    EndsVisibly (stringBody cs).taken := by
  fun_induction stringBody cs with
  | case1 => cases h
  | case2 => cases h
  | case3 c cs meant hc ih => exact (ih h).append ['\\', c]
  | case4 c cs hc ih => exact (ih h).append ['\\', c]
  | case5 => exact ⟨[], '"', rfl, rfl⟩
  | case6 c cs hlast hmore hquote hnewline ih => exact (ih h).append ['\n']
  | case7 c cs hlast hmore hquote hnewline ih => exact (ih h).append [c]

theorem scanNumber_endsVisibly (hc : c.isDigit = true) (cs : List Char) :
    EndsVisibly (scanNumber c cs).taken := by
  have hdigits : ∀ ds : List Char, ∀ d ∈ ds.takeWhile Char.isDigit, Text.isBlank d = false :=
    fun ds d hd => isBlank_of_isDigit (List.mem_takeWhile_imp hd)
  have hwhole := endsVisibly_cons (List.forall_mem_cons.mpr ⟨isBlank_of_isDigit hc, hdigits cs⟩)
  unfold scanNumber
  dsimp only
  split
  case h_1 d more hrest =>
    split
    case isTrue hd =>
      have hfraction := endsVisibly_cons <|
        List.forall_mem_cons.mpr ⟨isBlank_of_isDigit hd, hdigits more⟩
      exact (hfraction.append ['.']).append _
    case isFalse => exact hwhole
  case h_2 => exact hwhole

theorem scanWord_endsVisibly (hc : isLetter c = true) (cs : List Char) :
    EndsVisibly (scanWord c cs).taken :=
  endsVisibly_cons <| List.forall_mem_cons.mpr
    ⟨isBlank_of_isWordChar (by simp [isWordChar, hc]),
      fun _ hd => isBlank_of_isWordChar (List.mem_takeWhile_imp hd)⟩

theorem scanSingle_endsVisibly (h : (scanSingle c cs).item = .token kind literal) :
    EndsVisibly (scanSingle c cs).taken := by
  rcases scanSingle_token h with ⟨s, htext, hread⟩ | ⟨rfl, hread⟩ | ⟨hc, hread⟩ | ⟨hc, hread⟩
  · rw [hread]
    exact endsVisibly_cons (htext ▸ isBlank_text s)
  · rw [hread] at h ⊢
    have hclosed := stringBody_closed cs (faults_of_clear (clear_of_token h))
    exact (stringBody_endsVisibly cs hclosed).append ['"']
  · rw [hread]
    exact scanNumber_endsVisibly hc cs
  · rw [hread]
    exact scanWord_endsVisibly hc cs

theorem scanNext_endsVisibly (h : (scanNext c cs).item = .token kind literal) :
    EndsVisibly (scanNext c cs).taken := by
  cases cs with
  | nil => exact scanSingle_endsVisibly h
  | cons d cs =>
      simp only [scanNext] at h ⊢
      cases hs : doubleSymbol? c d with
      | some s => exact endsVisibly_cons (text_doubleSymbol hs ▸ isBlank_text s)
      | none =>
          simp only [hs] at h
          dsimp only
          split at h
          case isTrue => cases h
          case isFalse hslash =>
            rw [if_neg hslash]
            exact scanSingle_endsVisibly h

theorem scanFrom_endsVisibly (line : UInt32) (cs : List Char) :
    ∀ t ∈ (scanFrom line cs).tokens, EndsVisibly t.lexeme.toList := by
  fun_induction scanFrom line cs with
  | case1 line => simp
  | case2 line c cs reading later hitem ih => exact ih
  | case3 line c cs reading later kind literal hitem token ih =>
      refine List.forall_mem_cons.mpr ⟨?_, ih⟩
      rw [show token.lexeme.toList = reading.taken from String.toList_ofList]
      exact scanNext_endsVisibly hitem
  | case4 line c cs reading later faults hitem errors ih => exact ih

/-- A token ends in a character of the text that is no blank, and is on the line that the newlines
in front of this character say. -/
theorem exists_visible {source : String} {ts : List Token} (h : scan source = .ok ts)
    (hfits : 1 + newlines source < 2 ^ 32) {t : Token} (ht : t ∈ ts)
    (hkind : t.kind ≠ .endOfInput) :
    ∃ front x back, source.toList = front ++ x :: back ∧ Text.isBlank x = false ∧
      t.line.toNat = front.count '\n' + 1 := by
  obtain ⟨hclear, rfl⟩ := scan_eq_ok.mp h
  have hmem : t ∈ (scanFrom 1 source.toList).tokens := by
    refine (List.mem_append.mp ht).resolve_right fun hend => hkind ?_
    rw [List.mem_singleton.mp hend]
    rfl
  obtain ⟨ps, tail, htokens, hlayout⟩ := exists_layout 1 _ hclear
  obtain ⟨p, hp, rfl⟩ :=
    List.mem_map.mp ((show (scanFrom 1 source.toList).tokens = _ from htokens) ▸ hmem)
  obtain ⟨before, after, hsplit⟩ := List.append_of_mem hp
  obtain ⟨front, x, hlexeme, hx⟩ := scanFrom_endsVisibly 1 _ _ hmem
  refine ⟨charsOf before ++ p.gap ++ front, x, charsOf after ++ tail, ?_, hx, ?_⟩
  · rw [hlayout.text, hsplit]
    simp [charsOf, Spaced.text, hlexeme]
  · have hne : x ≠ '\n' := by
      rintro rfl
      cases hx
    rw [hlayout.toNat_line hfits hsplit, Spaced.text, hlexeme]
    simp [hne, Nat.add_comm, Nat.add_assoc]

end Token

/-! ### Statements -/

open Grammar Fragment

/-- The line of a statement in its text, without the blanks around it. -/
theorem exists_line_of_partOf {source : String} {code : List Statement}
    (h : parse source = .ok code) (hfits : 1 + Token.newlines source < 2 ^ 32) {w : Surroundings}
    {st : Statement} (hpart : (Fragment.statement w st).PartOf code) (name : String) :
    ∃ text, text ≠ "" ∧ SourceUnit.line? ⟨name, some source⟩ st.line = some text := by
  obtain ⟨ts, hscan, hformed⟩ := parse_formedOn h
  obtain ⟨y, hy, hst⟩ := hpart
  obtain ⟨line, kind⟩ := st
  obtain ⟨t, ht, hkind, rfl⟩ : Token.StandsOn ts line := (hformed y hy _ hst).line
  obtain ⟨front, x, back, hsource, hx, hline⟩ := Token.exists_visible hscan hfits ht hkind
  obtain ⟨text, htext, hne⟩ := Text.exists_line hx hsource
  refine ⟨Text.trim text, hne, ?_⟩
  rw [Statement.line, SourceUnit.line?, hline]
  exact congrArg (Option.map Text.trim) htext

/-- A string over two lines and, behind a carriage return, a lambda on the third. -/
def lambdaBehindString : String := "xs = [\"a\nb\",\r\n  fun(x) => x]; // text"

def lambdaBody : Statement := .mk 3 (.returnValues [.var "x"])

def quotedLambda : FunctionDecl := .mk "<lambda>" [.mk "x" none false] [] [lambdaBody] 3

def quotedList : Expr := .list [.literal (.str "a\nb"), .lambda quotedLambda]

example : SourceUnit.line? ⟨"a", some lambdaBehindString⟩ 3 = some "fun(x) => x]; // text" := by
  cbv

end Classlet
