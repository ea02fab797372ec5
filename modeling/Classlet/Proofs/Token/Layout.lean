import Classlet.Proofs.Token.Reads

/-! # Where the tokens of a text stand

The tokens of a text without faults, with the gaps between them, make up the text (`Layout`).  A gap
holds blanks, newlines and comments, and nothing else (`Gap`).  So no character is lost, and the
line of a token is told by the characters in front of its end: it is one more than the newlines
among them, counted with 32 bits (`Layout.toNat_line` for texts that need no more).  A token is read
from its lexeme alone as it is read from the text (`scanNext_alone`), so that what stands around it
does not matter. -/

namespace Classlet.Token

variable {c : Char} {cs ds rest : List Char} {kind : TokenKind} {literal : Option Literal}

/-! ### Gaps -/

/-- What may stand before `rest` without being part of a token: spaces, tabs, carriage returns,
newlines, and comments that run to the end of their line. -/
inductive Gap : List Char → List Char → Prop
  | nil (rest : List Char) : Gap [] rest
  | blank {c : Char} {cs rest : List Char} :
      c ∈ [' ', '\t', '\r', '\n'] → Gap cs rest → Gap (c :: cs) rest
  | comment {note cs rest : List Char} : '\n' ∉ note → (∀ c ∈ (cs ++ rest).head?, c = '\n') →
      Gap cs rest → Gap ('/' :: '/' :: note ++ cs) rest

theorem Gap.append (h : Gap cs (ds ++ rest)) (hd : Gap ds rest) : Gap (cs ++ ds) rest := by
  generalize hbehind : ds ++ rest = behind at h
  induction h with
  | nil => exact hd
  | blank hc _ ih => exact .blank hc (ih hbehind)
  | @comment note cs _ hnote hline _ ih =>
      rw [List.append_assoc]
      refine .comment hnote ?_ (ih hbehind)
      rwa [List.append_assoc, hbehind]

theorem head_dropWhile {p : Char → Bool} (h : c ∈ (cs.dropWhile p).head?) : p c = false := by
  have hhead := List.head?_dropWhile_not p cs
  rw [Option.mem_def.mp h] at hhead
  exact hhead

theorem scanString_ne_blank (cs : List Char) : (scanString cs).item ≠ .blank := by
  unfold scanString
  dsimp only
  split <;> rintro ⟨⟩

theorem scanNumber_ne_blank (c : Char) (cs : List Char) : (scanNumber c cs).item ≠ .blank := by
  unfold scanNumber
  dsimp only
  repeat' split
  all_goals rintro ⟨⟩

theorem scanWord_ne_blank (c : Char) (cs : List Char) : (scanWord c cs).item ≠ .blank := by
  unfold scanWord
  dsimp only
  split <;> rintro ⟨⟩

theorem scanSingle_blank (h : (scanSingle c cs).item = .blank) :
    c ∈ [' ', '\t', '\r', '\n'] ∧ (scanSingle c cs).taken = [c] ∧
      (scanSingle c cs).rest = cs := by
  unfold scanSingle at h ⊢
  cases hs : singleSymbol? c with
  | some s =>
      rw [hs] at h
      cases h
  | none =>
      cases ht : shortSymbol? c with
      | some s =>
          simp only [hs, ht] at h
          cases h
      | none =>
          simp only [hs, ht] at h
          dsimp only
          split at h
          · cases h
          split at h
          case isTrue hblank =>
            rw [if_neg ‹_›, if_pos hblank]
            refine ⟨?_, rfl, rfl⟩
            simp only [Bool.or_eq_true, beq_iff_eq] at hblank
            rcases hblank with (rfl | rfl) | rfl <;> decide
          split at h
          case isTrue hnewline =>
            rw [if_neg ‹_›, if_neg ‹_›, if_pos hnewline]
            obtain rfl : c = '\n' := beq_iff_eq.mp hnewline
            exact ⟨by decide, rfl, rfl⟩
          -- all other characters begin a token or a fault
          split at h
          · exact absurd h (scanString_ne_blank cs)
          split at h
          · exact absurd h (scanNumber_ne_blank c cs)
          split at h
          · exact absurd h (scanWord_ne_blank c cs)
          · cases h

/-- An item that is no token and no fault is a gap. -/
theorem scanNext_gap (h : (scanNext c cs).item = .blank) :
    Gap (scanNext c cs).taken (scanNext c cs).rest := by
  have hsingle : ∀ cs, (scanSingle c cs).item = .blank →
      Gap (scanSingle c cs).taken (scanSingle c cs).rest := fun cs h => by
    obtain ⟨hc, htaken, hrest⟩ := scanSingle_blank h
    rw [htaken, hrest]
    exact .blank hc (.nil cs)
  cases cs with
  | nil => exact hsingle [] h
  | cons d cs =>
      simp only [scanNext] at h ⊢
      cases hs : doubleSymbol? c d with
      | some s =>
          rw [hs] at h
          cases h
      | none =>
          simp only [hs] at h
          dsimp only
          split at h
          case isTrue hslash =>
            rw [if_pos hslash]
            obtain ⟨rfl, rfl⟩ : c = '/' ∧ d = '/' := by simpa using hslash
            have hnote : '\n' ∉ cs.takeWhile (· != '\n') :=
              List.count_eq_zero.mp (count_newline_takeWhile (p := (· != '\n')) rfl cs)
            have hline : ∀ c ∈ (cs.dropWhile (· != '\n')).head?, c = '\n' := fun c hc => by
              simpa using head_dropWhile hc
            simpa using Gap.comment hnote hline (.nil (cs.dropWhile (· != '\n')))
          case isFalse hslash =>
            rw [if_neg hslash]
            exact hsingle _ h

/-! ### Faults -/

theorem scanString_ne_faultless (cs : List Char) : (scanString cs).item ≠ .faulty [] := by
  intro h
  have hclosed := stringBody_closed cs
  unfold scanString at h
  dsimp only at h
  split at h
  case isTrue => cases h
  case isFalse hclear =>
    have hfaults : (stringBody cs).faults = [] := Item.faulty.inj h
    rw [hfaults, hclosed hfaults] at hclear
    exact hclear rfl

theorem scanNumber_ne_faultless (c : Char) (cs : List Char) :
    (scanNumber c cs).item ≠ .faulty [] := by
  unfold scanNumber
  dsimp only
  repeat' split
  all_goals rintro ⟨⟩

theorem scanWord_ne_faultless (c : Char) (cs : List Char) : (scanWord c cs).item ≠ .faulty [] := by
  unfold scanWord
  dsimp only
  split <;> rintro ⟨⟩

theorem scanSingle_ne_faultless (c : Char) (cs : List Char) :
    (scanSingle c cs).item ≠ .faulty [] := by
  unfold scanSingle
  split
  · rintro ⟨⟩
  · split
    · rintro ⟨⟩
    · repeat' split
      all_goals first
        | exact scanString_ne_faultless cs
        | exact scanNumber_ne_faultless c cs
        | exact scanWord_ne_faultless c cs
        | rintro ⟨⟩

/-- An item without token is a gap or has a fault. -/
theorem scanNext_ne_faultless (c : Char) (cs : List Char) : (scanNext c cs).item ≠ .faulty [] := by
  unfold scanNext
  split
  · exact scanSingle_ne_faultless c []
  · split
    · rintro ⟨⟩
    · split
      · rintro ⟨⟩
      · exact scanSingle_ne_faultless c _

/-! ### One token alone -/

/-- The same item with nothing behind it. -/
def Reading.alone (r : Reading) : Reading := { r with rest := [] }

theorem stringBody_taken (cs : List Char) (h : (stringBody cs).closed = true) :
    stringBody (stringBody cs).taken = { stringBody cs with rest := [] } := by
  fun_induction stringBody cs with
  | case1 => cases h
  | case2 => cases h
  | case3 c cs meant hc ih =>
      simp only [StringBody.push, List.cons_append, List.nil_append, stringBody, hc]
      rw [ih h]
  | case4 c cs hc ih =>
      simp only [StringBody.push, StringBody.pushFault, List.cons_append, List.nil_append,
        stringBody, hc]
      rw [ih h]
  | case5 => rfl
  | case6 c cs hlast hmore hquote hnewline ih =>
      obtain rfl : c = '\n' := beq_iff_eq.mp hnewline
      simp only [StringBody.pushNewline]
      rw [stringBody_cons (by decide), if_neg hquote, if_pos hnewline, ih h]
      rfl
  | case7 c cs hlast hmore hquote hnewline ih =>
      simp only [StringBody.push, List.cons_append, List.nil_append]
      rw [stringBody_cons (ne_backslash hlast hmore), if_neg hquote, if_neg hnewline, ih h]
      rfl

theorem dropWhile_takeWhile (p : Char → Bool) (cs : List Char) :
    (cs.takeWhile p).dropWhile p = [] :=
  List.dropWhile_eq_nil_iff.mpr fun _ => List.mem_takeWhile_imp

/-- A reading that begins with `c` is read off its own characters as well. -/
def Reading.StandsAlone (r : Reading) (c : Char) (scan : Char → List Char → Reading) : Prop :=
  ∃ more, r.taken = c :: more ∧ scan c more = r.alone

theorem scanString_alone (h : (scanString cs).item = .token kind literal) :
    (scanString cs).StandsAlone '"' fun _ => scanString := by
  have hclosed : (stringBody cs).closed = true := by
    unfold scanString at h
    dsimp only at h
    split at h
    case isTrue hclear => exact (Bool.and_eq_true_iff.mp hclear).1
    case isFalse => cases h
  refine ⟨(stringBody cs).taken, rfl, ?_⟩
  dsimp only [scanString]
  rw [stringBody_taken cs hclosed]
  rfl

theorem scanWord_alone (c : Char) (cs : List Char) :
    (scanWord c cs).StandsAlone c scanWord := by
  refine ⟨cs.takeWhile isWordChar, rfl, ?_⟩
  rw [scanWord, List.takeWhile_idem, dropWhile_takeWhile]
  rfl

theorem scanNumber_alone (c : Char) (cs : List Char) :
    (scanNumber c cs).StandsAlone c scanNumber := by
  unfold Reading.StandsAlone scanNumber
  dsimp only
  split
  case h_1 d more hrest =>
    split
    case isTrue hd =>
      have hdigits : (cs.takeWhile Char.isDigit).all Char.isDigit = true := List.all_takeWhile
      have hpoint : ∀ e ∈ ('.' :: d :: more.takeWhile Char.isDigit).head?, e.isDigit = false := by
        rintro e ⟨⟩
        rfl
      refine ⟨cs.takeWhile Char.isDigit ++ '.' :: d :: more.takeWhile Char.isDigit, rfl, ?_⟩
      rw [takeWhile_run hdigits hpoint, dropWhile_run hdigits hpoint]
      simp only [hd, if_true, List.takeWhile_idem, dropWhile_takeWhile]
      rfl
    case isFalse hd =>
      refine ⟨_, rfl, ?_⟩
      rw [List.takeWhile_idem, dropWhile_takeWhile]
      rfl
  case h_2 hrest =>
    refine ⟨_, rfl, ?_⟩
    rw [List.takeWhile_idem, dropWhile_takeWhile]
    rfl

/-- The first character of a token decides by which rule it is read. -/
theorem scanSingle_token (h : (scanSingle c cs).item = .token kind literal) :
    (∃ s : Symbol, s.text.toList = [c] ∧ ∀ cs, scanSingle c cs = symbolReading s [c] cs) ∨
      (c = '"' ∧ ∀ cs, scanSingle c cs = scanString cs) ∨
      (c.isDigit = true ∧ ∀ cs, scanSingle c cs = scanNumber c cs) ∨
      (isLetter c = true ∧ ∀ cs, scanSingle c cs = scanWord c cs) := by
  unfold scanSingle at h ⊢
  cases hs : singleSymbol? c with
  | some s => exact .inl ⟨s, text_singleSymbol hs, fun _ => rfl⟩
  | none =>
      cases ht : shortSymbol? c with
      | some s => exact .inl ⟨s, text_shortSymbol ht, fun _ => rfl⟩
      | none =>
          simp only [hs, ht] at h
          dsimp only
          split at h
          · cases h
          split at h
          · cases h
          split at h
          · cases h
          split at h
          case isTrue hquote =>
            obtain rfl : c = '"' := beq_iff_eq.mp hquote
            exact .inr (.inl ⟨rfl, fun _ => rfl⟩)
          split at h
          case isTrue hdigit => exact .inr (.inr (.inl ⟨hdigit, by simp [*]⟩))
          split at h
          case isTrue hletter => exact .inr (.inr (.inr ⟨hletter, by simp [*]⟩))
          case isFalse => cases h

theorem scanSingle_alone (h : (scanSingle c cs).item = .token kind literal) :
    (scanSingle c cs).StandsAlone c scanSingle := by
  unfold Reading.StandsAlone
  rcases scanSingle_token h with ⟨s, -, hread⟩ | ⟨rfl, hread⟩ | ⟨-, hread⟩ | ⟨-, hread⟩
  · exact ⟨[], by rw [hread]; rfl, by rw [hread, hread]; rfl⟩
  · rw [hread] at h
    simp only [hread]
    exact scanString_alone h
  · simp only [hread]
    exact scanNumber_alone c cs
  · simp only [hread]
    exact scanWord_alone c cs

theorem clear_of_token {r : Reading} (h : r.item = .token kind literal) : r.Clear :=
  fun faults hfaulty => by
    rw [h] at hfaulty
    cases hfaulty

/-- A token is read off its own characters as it is read off the text. -/
theorem scanNext_alone (h : (scanNext c cs).item = .token kind literal) :
    (scanNext c cs).StandsAlone c scanNext := by
  cases cs with
  | nil =>
      obtain ⟨more, htaken, halone⟩ := scanSingle_alone h
      have hall : (scanSingle c []).taken ++ (scanSingle c []).rest = [c] :=
        (scanSingle_accounts (clear_of_token h)).taken
      rw [htaken, List.cons_append, List.cons.injEq, List.append_eq_nil_iff] at hall
      obtain ⟨-, rfl, -⟩ := hall
      exact ⟨[], htaken, halone⟩
  | cons d cs =>
      cases hs : doubleSymbol? c d with
      | some s =>
          have hread : ∀ cs, scanNext c (d :: cs) = symbolReading s [c, d] cs := fun cs => by
            simp only [scanNext, hs]
          rw [Reading.StandsAlone, hread]
          exact ⟨[d], rfl, hread []⟩
      | none =>
          by_cases hslash : (c == '/' && d == '/') = true
          · simp only [scanNext, hs, if_pos hslash] at h
            cases h
          · have hread : ∀ cs, scanNext c (d :: cs) = scanSingle c (d :: cs) := fun cs => by
              simp only [scanNext, hs, if_neg hslash]
            rw [Reading.StandsAlone, hread]
            rw [hread] at h
            obtain ⟨more, htaken, halone⟩ := scanSingle_alone h
            refine ⟨more, htaken, halone ▸ ?_⟩
            -- the characters of the token are a front of the text, and so begin with the same two
            have hall := (scanSingle_accounts (clear_of_token h)).taken
            rw [htaken] at hall
            cases more with
            | nil => rfl
            | cons e more =>
                obtain rfl : e = d := (List.cons.inj (List.cons.inj hall).2).1
                exact hread more

/-- The characters of a token hold that token and nothing else. -/
theorem scanFrom_alone {line : UInt32} (h : (scanNext c cs).item = .token kind literal) :
    scanFrom line (scanNext c cs).taken =
      ⟨[⟨kind, String.ofList (scanNext c cs).taken, literal,
          line + .ofNat (scanNext c cs).newlines⟩],
        [], line + .ofNat (scanNext c cs).newlines⟩ := by
  obtain ⟨more, htaken, halone⟩ := scanNext_alone h
  rw [htaken, scanFrom, halone]
  simp only [Reading.alone, h, scanFrom, htaken]

theorem scan_lexeme {line : UInt32} {t : Token} (ht : t ∈ (scanFrom line cs).tokens) :
    scan t.lexeme = .ok [{ t with line := .ofNat (1 + newlines t.lexeme) },
      endOfInput (.ofNat (1 + newlines t.lexeme))] := by
  fun_induction scanFrom line cs with
  | case1 line => cases ht
  | case2 line c cs reading later hitem ih => exact ih ht
  | case3 line c cs reading later kind literal hitem token ih =>
      rcases List.mem_cons.mp ht with rfl | ht
      · have hcount := (scanNext_accounts (clear_of_token hitem)).newlines
        have hnewlines : newlines token.lexeme = reading.newlines := by
          rw [hcount, newlines, String.toList_ofList]
        rw [scan_eq_ok, hnewlines, UInt32.ofNat_add]
        rw [show token.lexeme.toList = reading.taken from String.toList_ofList,
          scanFrom_alone hitem]
        exact ⟨rfl, rfl⟩
      · exact ih ht
  | case4 line c cs reading later faults hitem errors ih => exact ih ht

/-! ### Texts laid out -/

/-- A token and the gap in front of it. -/
structure Spaced where
  gap : List Char
  token : Token

/-- The characters of a gap and of the token behind it. -/
def Spaced.text (p : Spaced) : List Char := p.gap ++ p.token.lexeme.toList

/-- The characters of gaps and tokens, one after the other. -/
def charsOf (ps : List Spaced) : List Char := ps.flatMap Spaced.text

/-- The characters `cs`, the first of which stands on a line, are tokens with a gap in front of each
and a last gap. -/
structure Layout (line : Nat) (cs : List Char) (ps : List Spaced) (tail : List Char) : Prop where
  text : cs = charsOf ps ++ tail
  gap : ∀ before p after, ps = before ++ p :: after →
    Gap p.gap (p.token.lexeme.toList ++ (charsOf after ++ tail))
  tail : Gap tail []
  /-- A token is on the line of its end. -/
  line : ∀ before p after, ps = before ++ p :: after →
    p.token.line = .ofNat (line + (charsOf before ++ p.text).count '\n')

variable {line : Nat} {ps : List Spaced} {tail : List Char}

theorem layout_nil (line : Nat) : Layout line [] [] [] where
  text := rfl
  gap before p after h := by simp at h
  tail := .nil []
  line before p after h := by simp at h

theorem Layout.push {t : Token} (ht : t.line = .ofNat (line + t.lexeme.toList.count '\n'))
    (h : Layout (line + t.lexeme.toList.count '\n') cs ps tail) :
    Layout line (t.lexeme.toList ++ cs) (⟨[], t⟩ :: ps) tail where
  text := by
    rw [h.text]
    simp [charsOf, Spaced.text]
  gap := by
    rintro (_ | ⟨q, before⟩) p after heq
    · obtain ⟨rfl, rfl⟩ := List.cons.inj heq
      exact .nil _
    · exact h.gap before p after (List.cons.inj heq).2
  tail := h.tail
  line := by
    rintro (_ | ⟨q, before⟩) p after heq
    · obtain ⟨rfl, rfl⟩ := List.cons.inj heq
      exact ht
    · obtain ⟨rfl, hps⟩ := List.cons.inj heq
      rw [h.line before p after hps]
      simp only [charsOf, List.flatMap_cons, Spaced.text, List.nil_append, List.count_append,
        Nat.add_assoc]

/-- A gap in front of a text belongs to its first token, or to its last gap. -/
theorem Layout.space {gap : List Char} (hgap : Gap gap cs)
    (h : Layout (line + gap.count '\n') cs ps tail) :
    ∃ ps' tail', ps'.map Spaced.token = ps.map Spaced.token ∧
      Layout line (gap ++ cs) ps' tail' := by
  cases ps with
  | nil =>
      refine ⟨[], gap ++ tail, rfl, ?_⟩
      have htail : Gap (gap ++ tail) [] := by
        refine Gap.append ?_ h.tail
        rw [h.text] at hgap
        rwa [List.append_nil]
      exact ⟨by rw [h.text]; rfl, fun before p after heq => by simp at heq, htail,
        fun before p after heq => by simp at heq⟩
  | cons p ps =>
      refine ⟨⟨gap ++ p.gap, p.token⟩ :: ps, tail, rfl, ?_⟩
      have hfirst : Gap (gap ++ p.gap) (p.token.lexeme.toList ++ (charsOf ps ++ tail)) := by
        refine Gap.append ?_ (h.gap [] p ps rfl)
        rw [h.text] at hgap
        simpa [charsOf, Spaced.text] using hgap
      constructor
      case text =>
        rw [h.text]
        simp [charsOf, Spaced.text]
      case gap =>
        rintro (_ | ⟨q, before⟩) r after heq
        · obtain ⟨rfl, rfl⟩ := List.cons.inj heq
          exact hfirst
        · exact h.gap (p :: before) r after (congrArg (p :: ·) (List.cons.inj heq).2)
      case tail => exact h.tail
      case line =>
        rintro (_ | ⟨q, before⟩) r after heq
        · obtain ⟨rfl, rfl⟩ := List.cons.inj heq
          rw [h.line [] p _ rfl]
          simp only [charsOf, List.flatMap_nil, Spaced.text, List.nil_append, List.count_append,
            Nat.add_assoc]
        · obtain ⟨rfl, hps⟩ := List.cons.inj heq
          rw [h.line (p :: before) r after (congrArg (p :: ·) hps)]
          simp only [charsOf, List.flatMap_cons, Spaced.text, List.count_append, Nat.add_assoc]

/-- A text without faults is laid out as its tokens, each of which is read alone as well. -/
theorem exists_layout (first : Nat) (cs : List Char)
    (h : (scanFrom (.ofNat first) cs).errors = []) :
    ∃ ps tail, (scanFrom (.ofNat first) cs).tokens = ps.map Spaced.token ∧
      Layout first cs ps tail := by
  generalize hfirst : UInt32.ofNat first = line at h ⊢
  fun_induction scanFrom line cs generalizing first with
  | case1 line => exact ⟨[], [], rfl, layout_nil first⟩
  | case2 line c cs reading later hitem ih =>
      have haccounts : reading.Accounts (c :: cs) :=
        scanNext_accounts fun faults hf => by rw [hitem] at hf; cases hf
      obtain ⟨ps, tail, htokens, hlayout⟩ := ih (first + reading.newlines)
        (by rw [UInt32.ofNat_add, hfirst]) h
      rw [haccounts.newlines] at hlayout
      obtain ⟨ps', tail', hsame, hlayout⟩ := hlayout.space (scanNext_gap hitem)
      rw [haccounts.taken] at hlayout
      exact ⟨ps', tail', htokens.trans hsame.symm, hlayout⟩
  | case3 line c cs reading later kind literal hitem token ih =>
      have haccounts : reading.Accounts (c :: cs) := scanNext_accounts (clear_of_token hitem)
      have hlexeme : token.lexeme.toList = reading.taken := String.toList_ofList
      have hcount : reading.newlines = token.lexeme.toList.count '\n' := by
        rw [hlexeme, haccounts.newlines]
      obtain ⟨ps, tail, htokens, hlayout⟩ := ih (first + reading.newlines)
        (by rw [UInt32.ofNat_add, hfirst]) h
      have hline : token.line = .ofNat (first + token.lexeme.toList.count '\n') := by
        rw [← hcount, UInt32.ofNat_add, hfirst]
      rw [hcount] at hlayout
      have hpushed := hlayout.push hline
      rw [hlexeme, haccounts.taken] at hpushed
      exact ⟨⟨[], token⟩ :: ps, tail, congrArg (token :: ·) htokens, hpushed⟩
  | case4 line c cs reading later faults hitem errors ih =>
      obtain ⟨herrors, -⟩ := List.append_eq_nil_iff.mp h
      obtain rfl := List.map_eq_nil_iff.mp herrors
      exact absurd hitem (scanNext_ne_faultless c cs)

/-- The line of a token of a text whose lines can be counted with 32 bits. -/
theorem Layout.toNat_line (h : Layout line cs ps tail) (hfits : line + cs.count '\n' < 2 ^ 32)
    {before after : List Spaced} {p : Spaced} (hp : ps = before ++ p :: after) :
    p.token.line.toNat = line + (charsOf before ++ p.text).count '\n' := by
  have hcount : (charsOf before ++ p.text).count '\n' ≤ cs.count '\n' := by
    rw [h.text, hp]
    simp only [charsOf, List.flatMap_append, List.flatMap_cons, List.count_append]
    omega
  rw [h.line before p after hp, UInt32.toNat_ofNat', Nat.mod_eq_of_lt (by omega)]

/-- **Scanning loses nothing.**  A text without faults is laid out as its tokens, and the end mark
stands on its last line.  The line of a token is one plus the newlines in front of its end, as far
as 32 bits can count.  The lexeme of every other token, scanned alone, is that token. -/
theorem scan_lossless {source : String} {ts : List Token} (h : scan source = .ok ts) :
    ∃ ps tail, ts = ps.map Spaced.token ++ [endOfInput (.ofNat (1 + newlines source))] ∧
      Layout 1 source.toList ps tail ∧
      (1 + newlines source < 2 ^ 32 → ∀ before p after, ps = before ++ p :: after →
        p.token.line.toNat = 1 + (charsOf before ++ p.text).count '\n') ∧
      ∀ p ∈ ps, p.token.kind ≠ .endOfInput ∧
        scan p.token.lexeme =
          .ok [{ p.token with line := .ofNat (1 + newlines p.token.lexeme) },
            endOfInput (.ofNat (1 + newlines p.token.lexeme))] := by
  obtain ⟨hclear, rfl⟩ := scan_eq_ok.mp h
  obtain ⟨ps, tail, htokens, hlayout⟩ := exists_layout 1 _ hclear
  have hlast : (scanFrom 1 source.toList).lastLine = .ofNat (1 + newlines source) := by
    rw [lastLine_eq 1 _ hclear, newlines, UInt32.ofNat_add]
    rfl
  refine ⟨ps, tail, by rw [← htokens, hlast]; rfl, hlayout,
    fun hfits before p after hp => hlayout.toNat_line hfits hp, fun p hp => ?_⟩
  have hmem : p.token ∈ (scanFrom 1 source.toList).tokens := by
    rw [show (scanFrom 1 source.toList).tokens = _ from htokens]
    exact List.mem_map_of_mem hp
  exact ⟨(scanFrom_spelled _ _ _ hmem).kind_ne, scan_lexeme hmem⟩

/-- A string over two lines, a range and a comment at the end. -/
def stringOverLines : String := "x = \"a\nb\"; // text\n0..10; // range"

theorem scan_lossless_string_over_lines : ∃ ts ps tail, scan stringOverLines = .ok ts ∧
    ts = ps.map Spaced.token ++ [endOfInput 3] ∧ Layout 1 stringOverLines.toList ps tail ∧
      (∀ before p after, ps = before ++ p :: after →
        p.token.line.toNat = 1 + (charsOf before ++ p.text).count '\n') ∧
      ∀ p ∈ ps, p.token.kind ≠ .endOfInput ∧
        scan p.token.lexeme =
          .ok [{ p.token with line := .ofNat (1 + newlines p.token.lexeme) },
            endOfInput (.ofNat (1 + newlines p.token.lexeme))] := by
  have hok : (scan stringOverLines).isOk = true := by decide +kernel
  have hlines : 1 + newlines stringOverLines = 3 := by decide +kernel
  obtain ⟨ts, hts⟩ : ∃ ts, scan stringOverLines = .ok ts := by
    cases hresult : scan stringOverLines with
    | ok ts => exact ⟨ts, rfl⟩
    | error errors =>
        rw [hresult] at hok
        cases hok
  obtain ⟨ps, tail, hps, hlayout, hexact, hrest⟩ := scan_lossless hts
  rw [hlines] at hps hexact
  exact ⟨ts, ps, tail, hts, hps, hlayout, hexact (by decide), hrest⟩

end Classlet.Token
