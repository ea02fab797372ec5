import Mathlib
import Classlet.Proofs.Numeral.Digits
import Classlet.Proofs.Token.Joined

/-! # Texts put together from tokens

`Token.Reads cs ts ahead` says that the characters `cs` are read as the tokens `ts` before every
text that `ahead` allows, and that this text is then read as it would be alone.  Such texts are put
together with `Reads.append`.  What may come ahead differs: a parenthesis is read as one before
anything, a name only before what does not go on with it (`WordEnds`), a number not before a point
and a digit either (`Ends`), and a sign not before what would make another symbol of it
(`Opens`). -/

namespace Classlet

/-- Printable ASCII characters other than the quote and the backslash. -/
def Text.isPlain (c : Char) : Bool :=
  0x20 ≤ c.toNat && c.toNat < 0x7f && c != '"' && c != '\\'

/-- Printable ASCII characters, and the control characters that a letter or a digit behind a
backslash stands for. -/
def Text.isWritable (c : Char) : Bool :=
  (0x20 ≤ c.toNat && c.toNat < 0x7f) || ['\n', '\t', '\r', '\x00'].contains c

namespace Token

variable {c d : Char} {cs ds rest : List Char} {ts us : List Token} {s : Symbol}

/-! ### What may come ahead -/

/-- Nothing, or what is no part of a word. -/
def WordEnds (rest : List Char) : Prop := ∀ c ∈ rest.head?, isWordChar c = false

/-- Nothing, or what goes on neither with a word nor with a number. -/
structure Ends (rest : List Char) : Prop where
  word : WordEnds rest
  fraction : ∀ d more, rest = '.' :: d :: more → d.isDigit = false

/-- A text that makes no symbol of two characters out of a sign or an equals sign before it. -/
def Opens (cs : List Char) : Prop := ∃ c ds, cs = c :: ds ∧ c ≠ '=' ∧ c ≠ '>'

theorem Opens.append (h : Opens cs) (ds : List Char) : Opens (cs ++ ds) := by
  obtain ⟨c, more, rfl, hc⟩ := h
  exact ⟨c, more ++ ds, rfl, hc⟩

theorem wordEnds_cons (h : isWordChar c = false) (rest : List Char) : WordEnds (c :: rest) := by
  rintro d ⟨⟩
  exact h

theorem ends_nil : Ends [] := ⟨fun _ hc => (by cases hc), fun _ _ h => by cases h⟩

theorem ends_cons (h : isWordChar c = false) (hc : c ≠ '.') (rest : List Char) :
    Ends (c :: rest) where
  word := wordEnds_cons h rest
  fraction := by
    rintro d more ⟨⟩
    exact absurd rfl hc

theorem singleSymbol_not_word (h : singleSymbol? c = some s) : isWordChar c = false ∧ c ≠ '.' := by
  unfold singleSymbol? at h
  split at h <;> cases h <;> exact ⟨rfl, by decide⟩

theorem shortSymbol_not_word (h : shortSymbol? c = some s) : isWordChar c = false := by
  unfold shortSymbol? at h
  split at h <;> cases h <;> rfl

theorem doubleSymbol_not_word (h : doubleSymbol? c d = some s) : isWordChar c = false := by
  unfold doubleSymbol? at h
  split at h <;> cases h <;> rfl

theorem ends_single (h : singleSymbol? c = some s) (rest : List Char) : Ends (c :: rest) :=
  ends_cons (singleSymbol_not_word h).1 (singleSymbol_not_word h).2 rest

/-! ### Tokens of the first line -/

/-- A token of the first line that begins no lambda and ends no text. -/
structure Ordinary (t : Token) : Prop where
  line : t.line = 1
  noFun : t.kind ≠ .keyword .fun
  noEnd : t.kind ≠ .endOfInput

/-- A symbol of the first line. -/
def mark (s : Symbol) : Token := ⟨.symbol s, s.text, none, 1⟩

/-- A reserved word of the first line. -/
def ofKeyword (k : Keyword) : Token := ⟨.keyword k, k.text, k.literal?, 1⟩

def ofName (name : String) : Token := ⟨.identifier, name, none, 1⟩

theorem ordinary_mark (s : Symbol) : (mark s).Ordinary :=
  ⟨rfl, by simp [mark], by simp [mark]⟩

/-- A text is read as tokens, before every text that is allowed ahead. -/
structure Reads (cs : List Char) (ts : List Token) (ahead : List Char → Prop) : Prop where
  scan : ∀ rest, ahead rest → scanFrom 1 (cs ++ rest) =
    { scanFrom 1 rest with tokens := ts ++ (scanFrom 1 rest).tokens }
  ordinary : ∀ t ∈ ts, t.Ordinary

variable {ahead further : List Char → Prop}

theorem Reads.mono (h : Reads cs ts ahead) (hahead : ∀ rest, further rest → ahead rest) :
    Reads cs ts further where
  scan rest hrest := h.scan rest (hahead rest hrest)
  ordinary := h.ordinary

theorem Reads.append (h : Reads cs ts ahead) (hd : Reads ds us further)
    (hahead : ∀ rest, further rest → ahead (ds ++ rest)) : Reads (cs ++ ds) (ts ++ us) further where
  scan rest hrest := by
    rw [List.append_assoc, h.scan _ (hahead rest hrest), hd.scan rest hrest, List.append_assoc]
  ordinary := List.forall_mem_append.mpr ⟨h.ordinary, hd.ordinary⟩

theorem reads_nil : Reads [] [] ahead := ⟨fun _ _ => rfl, fun _ ht => by cases ht⟩

theorem reads_token {kind : TokenKind} {literal : Option Literal}
    (hread : ∀ rest, ahead rest →
      scanNext c (cs ++ rest) = ⟨.token kind literal, c :: cs, 0, rest⟩)
    (hordinary : Ordinary ⟨kind, String.ofList (c :: cs), literal, 1⟩) :
    Reads (c :: cs) [⟨kind, String.ofList (c :: cs), literal, 1⟩] ahead where
  scan rest hrest := by
    rw [List.cons_append, scanFrom]
    simp only [hread rest hrest]
    rfl
  ordinary := List.forall_mem_singleton.mpr hordinary

/-! ### Blanks and symbols -/

theorem reads_blank : Reads [' '] [] fun _ => True where
  scan rest _ := by
    have hblank : scanNext ' ' rest = ⟨.blank, [' '], 0, rest⟩ := by cases rest <;> rfl
    rw [List.cons_append, scanFrom]
    simp only [List.nil_append, hblank]
    rfl
  ordinary := fun _ ht => by cases ht

theorem reads_symbol (htext : s.text.toList = c :: cs)
    (hread : ∀ rest, ahead rest → scanNext c (cs ++ rest) = symbolReading s (c :: cs) rest) :
    Reads (c :: cs) [mark s] ahead := by
  have hmark : mark s = ⟨.symbol s, String.ofList (c :: cs), none, 1⟩ := by
    rw [mark, ← htext, String.ofList_toList]
  rw [hmark]
  exact reads_token hread (hmark ▸ ordinary_mark s)

/-- A symbol of one character that begins no longer one is read before anything. -/
theorem reads_single (h : singleSymbol? c = some s) : Reads [c] [mark s] fun _ => True := by
  refine reads_symbol (text_singleSymbol h) fun rest _ => ?_
  have hsingle : ∀ cs, scanSingle c cs = symbolReading s [c] cs := fun cs => by
    simp [scanSingle, h]
  cases rest with
  | nil => exact hsingle []
  | cons d more =>
      have hdouble : doubleSymbol? c d = none := by
        unfold singleSymbol? at h
        split at h <;> cases h <;> rfl
      have hslash : c ≠ '/' := by
        rintro rfl
        cases h
      simp [scanNext, hdouble, hslash, hsingle]

theorem Reads.before_single (hc : singleSymbol? c = some s) (h : Reads cs ts ahead) :
    Reads (c :: cs) (mark s :: ts) ahead :=
  (reads_single hc).append h fun _ _ => trivial

theorem Reads.behind_single (h : Reads cs ts Ends) (hc : singleSymbol? c = some s) :
    Reads (cs ++ [c]) (ts ++ [mark s]) fun _ => True :=
  h.append (reads_single hc) fun rest _ => ends_single hc rest

theorem Reads.bracketed {l r : Char} {sl sr : Symbol} (h : Reads cs ts Ends)
    (hl : singleSymbol? l = some sl) (hr : singleSymbol? r = some sr) :
    Reads (l :: (cs ++ [r])) (mark sl :: (ts ++ [mark sr])) fun _ => True :=
  (h.behind_single hr).before_single hl

theorem reads_dot : Reads ['.'] [mark .dot] fun rest => ∀ c ∈ rest.head?, isLetter c = true := by
  refine reads_symbol rfl fun rest hrest => ?_
  cases rest with
  | nil => rfl
  | cons d more =>
      have hd : d ≠ '.' := by
        rintro rfl
        cases hrest '.' rfl
      have hdouble : doubleSymbol? '.' d = none := by simp [doubleSymbol?, hd]
      simp [scanNext, hdouble]
      rfl

theorem reads_equal : Reads ['='] [mark .equal] Opens := by
  refine reads_symbol rfl ?_
  rintro _ ⟨d, more, rfl, hequal, hgreater⟩
  have hdouble : doubleSymbol? '=' d = none := by simp [doubleSymbol?, hequal, hgreater]
  simp [scanNext, hdouble]
  rfl

theorem reads_minus : Reads ['-'] [mark .minus] Opens := by
  refine reads_symbol rfl ?_
  rintro _ ⟨d, more, rfl, -, hgreater⟩
  have hdouble : doubleSymbol? '-' d = none := by simp [doubleSymbol?, hgreater]
  simp [scanNext, hdouble]
  rfl

/-! ### Words -/

theorem takeWhile_run {p : Char → Bool} (hcs : cs.all p = true)
    (hrest : ∀ c ∈ rest.head?, p c = false) : (cs ++ rest).takeWhile p = cs := by
  rw [List.takeWhile_append_of_pos (List.all_eq_true.mp hcs)]
  cases rest with
  | nil => simp
  | cons c rest => simp [hrest c rfl]

theorem dropWhile_run {p : Char → Bool} (hcs : cs.all p = true)
    (hrest : ∀ c ∈ rest.head?, p c = false) : (cs ++ rest).dropWhile p = rest := by
  rw [List.dropWhile_append_of_pos (List.all_eq_true.mp hcs)]
  cases rest with
  | nil => rfl
  | cons c rest => simp [hrest c rfl]

theorem scanNext_of_wordChar (h : isWordChar c = true) (cs : List Char) :
    scanNext c cs = if c.isDigit then scanNumber c cs else scanWord c cs := by
  have hne : ∀ {d}, isWordChar d = false → c ≠ d := by
    rintro d hd rfl
    rw [h] at hd
    cases hd
  have hdouble : ∀ d, doubleSymbol? c d = none := fun d => by
    cases hs : doubleSymbol? c d with
    | none => rfl
    | some s => exact absurd rfl (hne (doubleSymbol_not_word hs))
  have hsymbol : singleSymbol? c = none ∧ shortSymbol? c = none := by
    constructor
    · cases hs : singleSymbol? c with
      | none => rfl
      | some s => exact absurd rfl (hne (singleSymbol_not_word hs).1)
    · cases hs : shortSymbol? c with
      | none => rfl
      | some s => exact absurd rfl (hne (shortSymbol_not_word hs))
  have hsingle : ∀ cs, scanSingle c cs =
      if c.isDigit then scanNumber c cs else scanWord c cs := fun cs => by
    have hblank : ¬ (c == ' ' || c == '\r' || c == '\t') := by
      simp [hne (d := ' ') rfl, hne (d := '\r') rfl, hne (d := '\t') rfl]
    have hletter : c.isDigit = false → isLetter c = true := fun hd => by
      simpa [isWordChar, hd] using h
    simp only [scanSingle, hsymbol.1, hsymbol.2, beq_iff_eq, hne (d := '!') rfl,
      hne (d := '\n') rfl, hne (d := '"') rfl, if_false, if_neg hblank]
    split
    case isTrue => rfl
    case isFalse hd => rw [if_pos (hletter (by simpa using hd))]
  cases cs with
  | nil => exact hsingle []
  | cons d cs => simp [scanNext, hdouble d, hne (d := '/') rfl, hsingle]

theorem isDigit_of_isLetter (h : isLetter c = true) : c.isDigit = false := by
  rcases Bool.or_eq_true_iff.mp h with halpha | hline
  · simp only [Char.isAlpha, Char.isUpper, Char.isLower, Char.isDigit] at halpha ⊢
    grind
  · obtain rfl : c = '_' := beq_iff_eq.mp hline
    rfl

theorem scanNext_of_letter (hc : isLetter c = true) (cs : List Char) :
    scanNext c cs = scanWord c cs := by
  rw [scanNext_of_wordChar (by simp [isWordChar, hc]), isDigit_of_isLetter hc, if_neg (by simp)]

theorem exists_of_name {name : String} (h : Spelled .identifier name.toList none) :
    ∃ c cs, name = String.ofList (c :: cs) ∧ isLetter c = true ∧ cs.all isWordChar = true ∧
      Keyword.ofText? name = none := by
  rw [← String.ofList_toList (s := name)]
  generalize name.toList = text at h ⊢
  cases h with
  | identifier hc hcs hfree => exact ⟨_, _, rfl, hc, hcs, hfree⟩

theorem reads_name {name : String} (h : Spelled .identifier name.toList none) :
    Reads name.toList [ofName name] WordEnds := by
  obtain ⟨c, cs, rfl, hc, hcs, hfree⟩ := exists_of_name h
  rw [String.toList_ofList]
  refine reads_token (fun rest hrest => ?_) ⟨rfl, by simp, by simp⟩
  rw [scanNext_of_letter hc, scanWord, takeWhile_run hcs hrest, dropWhile_run hcs hrest, hfree]

theorem exists_of_keyword (k : Keyword) : ∃ c cs, k.text.toList = c :: cs ∧ isLetter c = true ∧
    cs.all isWordChar = true ∧ Keyword.ofText? k.text = some k := by
  cases k <;> exact ⟨_, _, rfl, by decide, by decide, by decide⟩

/-- A reserved word before what does not go on with it. -/
theorem reads_keyword {k : Keyword} (hk : k ≠ .fun) :
    Reads k.text.toList [ofKeyword k] WordEnds := by
  obtain ⟨c, cs, htext, hc, hcs, hreserved⟩ := exists_of_keyword k
  have hlexeme : k.text = String.ofList (c :: cs) := by rw [← htext, String.ofList_toList]
  rw [htext, ofKeyword, hlexeme]
  refine reads_token (fun rest hrest => ?_) ⟨rfl, by simpa using hk, by simp⟩
  rw [scanNext_of_letter hc, scanWord, takeWhile_run hcs hrest, dropWhile_run hcs hrest,
    ← hlexeme, hreserved]

/-! ### Literals -/

/-- The digits of a number, before what goes on with no number. -/
theorem scanNext_of_digits (hc : c.isDigit = true) (hcs : cs.all Char.isDigit = true) {n : Int64}
    (hn : Numeral.signedDigits? false (c :: cs) = some n) (hrest : Ends rest) :
    scanNext c (cs ++ rest) = ⟨.token .integer (some (.int n)), c :: cs, 0, rest⟩ := by
  have hstop : ∀ d ∈ rest.head?, d.isDigit = false := fun d hd => by
    have := hrest.word d hd
    simp only [isWordChar, Bool.or_eq_false_iff] at this
    exact this.2
  rw [scanNext_of_wordChar (by simp [isWordChar, hc]), if_pos hc, scanNumber,
    takeWhile_run hcs hstop, dropWhile_run hcs hstop, hn]
  dsimp only
  split
  case h_1 d more => rw [if_neg (by simp [hrest.fraction d more rfl])]
  case h_2 => rfl

theorem reads_integer {n : Int64} (hn : 0 ≤ n.toInt) : Reads (Numeral.ofInt n.toInt).toList
    [⟨.integer, Numeral.ofInt n.toInt, some (.int n), 1⟩] Ends := by
  have hvalue : (n.toInt.natAbs : Int) = n.toInt := Int.natAbs_of_nonneg hn
  have hread : Numeral.signedDigits? false (Numeral.digits n.toInt.natAbs) = some n := by
    have hrange : Numeral.InRange (n.toInt.natAbs : Int) := by
      rw [hvalue]
      exact ⟨n.le_toInt, n.toInt_lt⟩
    rw [Numeral.signedDigits_digits hrange, hvalue, Int64.ofInt_toInt]
  rw [Numeral.ofInt, if_neg (Int.not_lt.mpr hn), String.toList_ofList]
  have hdigits : ∀ c ∈ Numeral.digits n.toInt.natAbs, c.isDigit = true :=
    fun _ => Numeral.isDigit_of_mem_digits
  cases hds : Numeral.digits n.toInt.natAbs with
  | nil => exact absurd hds (Numeral.digits_ne_nil _)
  | cons c cs =>
      rw [hds] at hread hdigits
      refine reads_token (fun rest hrest => ?_) ⟨rfl, by simp, by simp⟩
      obtain ⟨hc, hcs⟩ := List.forall_mem_cons.mp hdigits
      exact scanNext_of_digits hc (List.all_eq_true.mpr hcs) hread hrest

theorem isWritable_of_isPlain (h : Text.isPlain c = true) : Text.isWritable c = true := by
  simp only [Text.isPlain, Bool.and_eq_true, and_assoc] at h
  simp only [Text.isWritable, Bool.or_eq_true, Bool.and_eq_true]
  exact .inl ⟨h.1, h.2.1⟩

/-- A writable character is written behind a backslash, and the escape means it, or it is written as
it is, and a string takes it as it is. -/
theorem escape_cases (h : Text.isWritable c = true) :
    (∃ d, Text.escape c = ['\\', d] ∧ unescape? d = some c) ∨
      Text.escape c = [c] ∧ c ≠ '\\' ∧ c ≠ '"' ∧ c ≠ '\n' := by
  by_cases hspecial : c ∈ ['"', '\\', '\n', '\t', '\r', '\x00']
  · left
    simp only [List.mem_cons, List.not_mem_nil, or_false] at hspecial
    rcases hspecial with rfl | rfl | rfl | rfl | rfl | rfl <;> exact ⟨_, rfl, rfl⟩
  · right
    simp only [List.mem_cons, List.not_mem_nil, or_false, not_or] at hspecial
    obtain ⟨hquote, hbackslash, hnewline, htab, hreturn, hnul⟩ := hspecial
    have hprintable : 0x20 ≤ c.toNat ∧ c.toNat < 0x7f := by
      simpa [Text.isWritable, hnewline, htab, hreturn, hnul] using h
    have hpoint : Text.needsCodePoint c = false := by
      simp only [Text.needsCodePoint, if_pos hprintable.2, decide_eq_false_iff_not]
      omega
    refine ⟨?_, hbackslash, hquote, hnewline⟩
    simp [Text.escape, hquote, hbackslash, hnewline, htab, hreturn, hnul, hpoint]

/-- A string body in which the characters of a text are escaped holds that text. -/
theorem stringBody_escaped (h : cs.all Text.isWritable = true) (rest : List Char) :
    stringBody (cs.flatMap Text.escape ++ '"' :: rest) =
      { text := cs, taken := cs.flatMap Text.escape ++ ['"'], closed := true, rest := rest } := by
  induction cs with
  | nil => rw [List.flatMap_nil, List.nil_append, stringBody_cons (by decide)]; rfl
  | cons c cs ih =>
      rw [List.all_cons, Bool.and_eq_true] at h
      rw [List.flatMap_cons]
      rcases escape_cases h.1 with ⟨d, hescape, hmeans⟩ | ⟨hescape, hbackslash, hquote, hnewline⟩
      · rw [hescape, List.cons_append, List.singleton_append, List.cons_append, List.cons_append,
          stringBody, hmeans]
        dsimp only
        rw [ih h.2]
        rfl
      · rw [hescape, List.singleton_append, List.cons_append, stringBody_cons hbackslash,
          if_neg (by simpa using hquote), if_neg (by simpa using hnewline), ih h.2]
        rfl

theorem reads_quoted {text : String} (h : text.toList.all Text.isWritable = true) :
    Reads (Text.quote text).toList [⟨.string, Text.quote text, some (.str text), 1⟩]
      fun _ => True := by
  rw [Text.quote, String.toList_ofList, List.cons_append]
  refine reads_token (fun rest _ => ?_) ⟨rfl, by simp, by simp⟩
  have hstring : ∀ cs, scanSingle '"' cs = scanString cs := fun cs => rfl
  have hread : scanString (text.toList.flatMap Text.escape ++ ['"'] ++ rest) =
      ⟨.token .string (some (.str text)), '"' :: (text.toList.flatMap Text.escape ++ ['"']), 0,
        rest⟩ := by
    rw [List.append_assoc, List.singleton_append, scanString, stringBody_escaped h]
    simp
  rw [← hread]
  cases text.toList.flatMap Text.escape ++ ['"'] ++ rest with
  | nil => rfl
  | cons d more =>
      have hdouble : doubleSymbol? '"' d = none := by simp [doubleSymbol?]
      simp [scanNext, hdouble, hstring]

/-- A text that is read as tokens holds these tokens and nothing else. -/
theorem Reads.scan_eq {text : String} (h : Reads text.toList ts ahead) (hend : ahead []) :
    Token.scan text = .ok (ts ++ [Token.endOfInput 1]) := by
  have hread := h.scan [] hend
  have hnothing : scanFrom 1 [] = ⟨[], [], 1⟩ := by rw [scanFrom]
  rw [hnothing, List.append_nil, List.append_nil] at hread
  rw [scan_eq_ok, hread]
  exact ⟨rfl, rfl⟩

end Token

end Classlet
