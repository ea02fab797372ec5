import Classlet.Proofs.Token.Spelling

/-! # Texts joined by a newline

A text without faults has the same tokens when a newline and more text follow it: no item that is
read off it goes on over a newline at its end (`scanNext_newline`).  The tokens of what follows are
those of that text alone, on later lines (`scanFrom_joined`, `scan_newline`).  The newlines that are
counted in a text without faults are all that it has (`lastLine_eq`). -/

namespace Classlet

/-- A token `k` lines further down. -/
def Token.moved (k : UInt32) (t : Token) : Token := { t with line := t.line + k }

namespace Token

variable {c : Char} {cs : List Char}

@[simp] theorem kind_moved (k : UInt32) (t : Token) : (t.moved k).kind = t.kind := rfl

@[simp] theorem lexeme_moved (k : UInt32) (t : Token) : (t.moved k).lexeme = t.lexeme := rfl

@[simp] theorem literal_moved (k : UInt32) (t : Token) : (t.moved k).literal = t.literal := rfl

@[simp] theorem line_moved (k : UInt32) (t : Token) : (t.moved k).line = t.line + k := rfl

@[simp] theorem moved_zero (t : Token) : t.moved 0 = t := by
  rw [Token.moved, UInt32.add_zero]

/-! ### Later lines -/

/-- What a text that begins `k` lines further down holds. -/
def Scanned.moved (k : UInt32) (s : Scanned) : Scanned where
  tokens := s.tokens.map (Token.moved k)
  errors := s.errors.map fun e => { e with line := e.line + k }
  lastLine := s.lastLine + k

theorem scanFrom_moved (k line : UInt32) (cs : List Char) :
    scanFrom (line + k) cs = (scanFrom line cs).moved k := by
  fun_induction scanFrom line cs with
  | case1 line => rw [scanFrom]; rfl
  | case2 line c cs reading later hitem ih =>
      have hline : line + k + .ofNat reading.newlines = line + .ofNat reading.newlines + k := by
        ac_rfl
      rw [scanFrom, show scanNext c cs = reading from rfl, hline, ih, hitem]
  | case3 line c cs reading later kind literal hitem token ih =>
      have hline : line + k + .ofNat reading.newlines = line + .ofNat reading.newlines + k := by
        ac_rfl
      rw [scanFrom, show scanNext c cs = reading from rfl, hline, ih, hitem]
      rfl
  | case4 line c cs reading later faults hitem errors ih =>
      have hline : line + k + .ofNat reading.newlines = line + .ofNat reading.newlines + k := by
        ac_rfl
      have herrors : ∀ n, line + k + n = line + n + k := fun n => by ac_rfl
      rw [scanFrom, show scanNext c cs = reading from rfl, hline, ih, hitem]
      simp [Scanned.moved, errors, later, herrors]

/-! ### A newline behind an item -/

/-- The same item with more text behind what is left. -/
def Reading.followedBy (r : Reading) (more : List Char) : Reading :=
  { r with rest := r.rest ++ more }

/-- No fault was found. -/
def Reading.Clear (r : Reading) : Prop := ∀ faults, r.item = .faulty faults → faults = []

theorem takeWhile_newline {p : Char → Bool} (h : p '\n' = false) (cs ds : List Char) :
    (cs ++ '\n' :: ds).takeWhile p = cs.takeWhile p := by
  induction cs with
  | nil => simp [h]
  | cons c cs ih =>
      rw [List.cons_append, List.takeWhile_cons, List.takeWhile_cons, ih]

theorem dropWhile_newline {p : Char → Bool} (h : p '\n' = false) (cs ds : List Char) :
    (cs ++ '\n' :: ds).dropWhile p = cs.dropWhile p ++ '\n' :: ds := by
  induction cs with
  | nil => simp [h]
  | cons c cs ih =>
      rw [List.cons_append, List.dropWhile_cons, List.dropWhile_cons, ih]
      split
      · rfl
      · rfl

theorem stringBody_cons (hc : c ≠ '\\') (cs : List Char) : stringBody (c :: cs) =
    if c == '"' then { taken := ['"'], closed := true, rest := cs }
    else if c == '\n' then (stringBody cs).pushNewline
    else (stringBody cs).push [c] c := by
  rw [stringBody]
  · exact fun h => absurd h hc
  · exact fun _ _ h => absurd h hc

/-- A character that no case of an escape took is no backslash. -/
theorem ne_backslash (hlast : c = '\\' → cs = [] → False)
    (hmore : ∀ d ds, c = '\\' → cs = d :: ds → False) : c ≠ '\\' := by
  intro hc
  cases cs with
  | nil => exact hlast hc rfl
  | cons d ds => exact hmore d ds hc rfl

/-- A string that is closed does not look at what is behind it. -/
theorem stringBody_append (cs more : List Char) (h : (stringBody cs).closed = true) :
    stringBody (cs ++ more) = { stringBody cs with rest := (stringBody cs).rest ++ more } := by
  fun_induction stringBody cs with
  | case1 => cases h
  | case2 => cases h
  | case3 c cs meant hc ih =>
      simp only [List.cons_append, stringBody, hc]
      rw [ih h]
      rfl
  | case4 c cs hc ih =>
      simp only [List.cons_append, stringBody, hc]
      rw [ih h]
      rfl
  | case5 c cs hlast hmore hquote =>
      rw [List.cons_append, stringBody_cons (ne_backslash hlast hmore), if_pos hquote]
  | case6 c cs hlast hmore hquote hnewline ih =>
      rw [List.cons_append, stringBody_cons (ne_backslash hlast hmore), if_neg hquote,
        if_pos hnewline, ih h]
      rfl
  | case7 c cs hlast hmore hquote hnewline ih =>
      rw [List.cons_append, stringBody_cons (ne_backslash hlast hmore), if_neg hquote,
        if_neg hnewline, ih h]
      rfl

theorem stringBody_closed (cs : List Char) (h : (stringBody cs).faults = []) :
    (stringBody cs).closed = true := by
  fun_induction stringBody cs with
  | case1 => cases h
  | case2 => cases h
  | case3 c cs meant hc ih => exact ih h
  | case4 => cases h
  | case5 => rfl
  | case6 c cs _ _ _ _ ih => exact ih (List.map_eq_nil_iff.mp h)
  | case7 c cs _ _ _ _ ih => exact ih h

theorem faults_of_clear (h : (scanString cs).Clear) : (stringBody cs).faults = [] := by
  cases hb : (stringBody cs).faults with
  | nil => rfl
  | cons fault more => exact absurd (h (fault :: more) (by simp [scanString, hb])) (by simp)

theorem scanString_newline (ds : List Char) (h : (scanString cs).Clear) :
    scanString (cs ++ '\n' :: ds) = (scanString cs).followedBy ('\n' :: ds) := by
  have hclosed := stringBody_closed cs (faults_of_clear h)
  simp only [scanString, stringBody_append cs _ hclosed]
  rfl

theorem scanNumber_newline (c : Char) (cs ds : List Char) :
    scanNumber c (cs ++ '\n' :: ds) = (scanNumber c cs).followedBy ('\n' :: ds) := by
  have hdigit : Char.isDigit '\n' = false := rfl
  unfold scanNumber
  rw [takeWhile_newline hdigit, dropWhile_newline hdigit]
  rcases cs.dropWhile Char.isDigit with _ | ⟨d, _ | ⟨e, more⟩⟩
  · rfl
  · by_cases hd : d = '.'
    · subst hd
      rfl
    · simp [hd, Reading.followedBy]
  · by_cases hd : d = '.'
    · subst hd
      cases he : e.isDigit <;>
        simp [he, takeWhile_newline hdigit, dropWhile_newline hdigit, Reading.followedBy]
    · simp [hd, Reading.followedBy]

theorem scanWord_newline (c : Char) (cs ds : List Char) :
    scanWord c (cs ++ '\n' :: ds) = (scanWord c cs).followedBy ('\n' :: ds) := by
  have hword : isWordChar '\n' = false := rfl
  rw [scanWord, takeWhile_newline hword, dropWhile_newline hword]
  rfl

theorem scanSingle_newline (c : Char) (ds : List Char) (h : (scanSingle c cs).Clear) :
    scanSingle c (cs ++ '\n' :: ds) = (scanSingle c cs).followedBy ('\n' :: ds) := by
  unfold scanSingle at h ⊢
  cases hs : singleSymbol? c with
  | some s => rfl
  | none =>
      cases ht : shortSymbol? c with
      | some s => rfl
      | none =>
          simp only [hs, ht] at h
          dsimp only
          -- the kinds of characters that begin an item, in the order in which they are tried
          split at h
          · simp [*, Reading.followedBy]
          split at h
          · simp [*, Reading.followedBy]
          split at h
          · simp [*, Reading.followedBy]
          split at h
          · simpa [*] using scanString_newline ds h
          split at h
          · simpa [*] using scanNumber_newline c cs ds
          split at h
          · simpa [*] using scanWord_newline c cs ds
          · simp [*, Reading.followedBy]

theorem doubleSymbol_newline (c : Char) : doubleSymbol? c '\n' = none := by
  unfold doubleSymbol?
  split
  case h_11 => rfl
  all_goals contradiction

/-- An item without fault that a newline follows is read as at the end of a text. -/
theorem scanNext_newline (c : Char) (ds : List Char) (h : (scanNext c cs).Clear) :
    scanNext c (cs ++ '\n' :: ds) = (scanNext c cs).followedBy ('\n' :: ds) := by
  cases cs with
  | nil =>
      have hnext : scanNext c ('\n' :: ds) = scanSingle c ('\n' :: ds) := by
        simp [scanNext, doubleSymbol_newline]
      rw [List.nil_append, hnext]
      exact scanSingle_newline c ds h
  | cons d cs =>
      simp only [List.cons_append, scanNext] at h ⊢
      cases hs : doubleSymbol? c d with
      | some s => rfl
      | none =>
          simp only [hs] at h
          dsimp only
          split at h
          case isTrue hslash =>
            rw [if_pos hslash, if_pos hslash, takeWhile_newline (p := (· != '\n')) rfl,
              dropWhile_newline (p := (· != '\n')) rfl]
            rfl
          case isFalse hslash =>
            rw [if_neg hslash, if_neg hslash]
            exact scanSingle_newline c ds h

/-! ### The newlines of an item -/

/-- An item is a front of a text, and all its newlines are counted. -/
structure Reading.Accounts (r : Reading) (cs : List Char) : Prop where
  taken : r.taken ++ r.rest = cs
  newlines : r.newlines = r.taken.count '\n'

theorem count_newline_takeWhile {p : Char → Bool} (h : p '\n' = false) (cs : List Char) :
    (cs.takeWhile p).count '\n' = 0 := by
  refine List.count_eq_zero.mpr fun hmem => ?_
  have hp := List.all_eq_true.mp List.all_takeWhile _ hmem
  simp [h] at hp

theorem accounts_one (item : Item) (hc : c ≠ '\n') (cs : List Char) :
    Reading.Accounts ⟨item, [c], 0, cs⟩ (c :: cs) where
  taken := rfl
  newlines := by simp [hc]

theorem stringBody_accounts (cs : List Char) (h : (stringBody cs).faults = []) :
    (stringBody cs).taken ++ (stringBody cs).rest = cs ∧
      (stringBody cs).newlines = (stringBody cs).taken.count '\n' := by
  fun_induction stringBody cs with
  | case1 => cases h
  | case2 => cases h
  | case3 c cs meant hc ih =>
      have hne : c ≠ '\n' := by
        rintro rfl
        cases hc
      obtain ⟨htaken, hnewlines⟩ := ih h
      simp [StringBody.push, htaken, hnewlines, hne]
  | case4 => cases h
  | case5 c cs hlast hmore hquote => simp [beq_iff_eq.mp hquote]
  | case6 c cs hlast hmore hquote hnewline ih =>
      obtain ⟨htaken, hnewlines⟩ := ih (List.map_eq_nil_iff.mp h)
      simp [StringBody.pushNewline, htaken, hnewlines, beq_iff_eq.mp hnewline]
  | case7 c cs hlast hmore hquote hnewline ih =>
      obtain ⟨htaken, hnewlines⟩ := ih h
      have hne : c ≠ '\n' := fun hc => hnewline (beq_iff_eq.mpr hc)
      simp [StringBody.push, htaken, hnewlines, hne]

theorem scanString_accounts (h : (scanString cs).Clear) : (scanString cs).Accounts ('"' :: cs) := by
  obtain ⟨htaken, hnewlines⟩ := stringBody_accounts cs (faults_of_clear h)
  constructor
  · simp [scanString, htaken]
  · simp [scanString, hnewlines]

theorem scanNumber_accounts (hc : c ≠ '\n') (cs : List Char) :
    (scanNumber c cs).Accounts (c :: cs) := by
  have hdigit : Char.isDigit '\n' = false := rfl
  have hwhole := count_newline_takeWhile hdigit cs
  have hsplit := List.takeWhile_append_dropWhile (p := Char.isDigit) (l := cs)
  unfold scanNumber
  dsimp only
  split
  case h_1 d more hrest =>
    have hfraction := count_newline_takeWhile hdigit more
    split
    case isTrue hd =>
      have hne : d ≠ '\n' := by
        rintro rfl
        cases hd
      constructor
      · calc c :: cs.takeWhile Char.isDigit ++ '.' :: d :: more.takeWhile Char.isDigit ++
              more.dropWhile Char.isDigit
            = c :: (cs.takeWhile Char.isDigit ++ '.' :: d :: more) := by simp
          _ = c :: cs := by rw [← hrest, hsplit]
      · simp [hc, hne, hwhole, hfraction]
    case isFalse hd =>
      constructor
      · simp [hsplit]
      · simp [hc, hwhole]
  case h_2 =>
    constructor
    · simp [hsplit]
    · simp [hc, hwhole]

theorem scanWord_accounts (hc : c ≠ '\n') (cs : List Char) :
    (scanWord c cs).Accounts (c :: cs) where
  taken := by simp [scanWord]
  newlines := by simp [scanWord, hc, count_newline_takeWhile (p := isWordChar) rfl]

theorem scanSingle_accounts (h : (scanSingle c cs).Clear) :
    (scanSingle c cs).Accounts (c :: cs) := by
  by_cases hc : c = '\n'
  · subst hc
    exact ⟨rfl, rfl⟩
  unfold scanSingle at h ⊢
  cases hs : singleSymbol? c with
  | some s => exact accounts_one _ hc cs
  | none =>
      cases ht : shortSymbol? c with
      | some s => exact accounts_one _ hc cs
      | none =>
          simp only [hs, ht] at h
          dsimp only
          split at h
          · simpa [*] using accounts_one _ hc cs
          split at h
          · simpa [*] using accounts_one _ hc cs
          split at h
          case isTrue hnewline => exact absurd (beq_iff_eq.mp hnewline) hc
          split at h
          case isTrue hquote =>
            obtain rfl : c = '"' := beq_iff_eq.mp hquote
            exact scanString_accounts h
          split at h
          · simpa [*] using scanNumber_accounts hc cs
          split at h
          · simpa [*] using scanWord_accounts hc cs
          · cases h _ rfl

theorem accounts_two {s : Symbol} {d : Char} (h : doubleSymbol? c d = some s) (cs : List Char) :
    (symbolReading s [c, d] cs).Accounts (c :: d :: cs) := by
  refine ⟨rfl, ?_⟩
  unfold doubleSymbol? at h
  split at h
  case h_11 => cases h
  all_goals rfl

/-- An item without fault takes a front of the text and counts its newlines. -/
theorem scanNext_accounts (h : (scanNext c cs).Clear) : (scanNext c cs).Accounts (c :: cs) := by
  cases cs with
  | nil => exact scanSingle_accounts h
  | cons d cs =>
      simp only [scanNext] at h ⊢
      cases hs : doubleSymbol? c d with
      | some s => exact accounts_two hs cs
      | none =>
          simp only [hs] at h
          dsimp only
          split at h
          case isTrue hslash =>
            rw [if_pos hslash]
            have hcount := count_newline_takeWhile (p := (· != '\n')) rfl cs
            obtain ⟨rfl, rfl⟩ : c = '/' ∧ d = '/' := by simpa using hslash
            exact ⟨by simp, by simp [hcount]⟩
          case isFalse hslash =>
            rw [if_neg hslash]
            exact scanSingle_accounts h

/-! ### Whole texts -/

theorem Reading.Accounts.count {r : Reading} (h : r.Accounts cs) :
    cs.count '\n' = r.newlines + r.rest.count '\n' := by
  rw [← h.taken, List.count_append, h.newlines]

theorem doubleSymbol_of_newline (d : Char) : doubleSymbol? '\n' d = none := by
  unfold doubleSymbol?
  split
  case h_11 => rfl
  all_goals contradiction

theorem scanNext_blank_newline (cs : List Char) : scanNext '\n' cs = ⟨.blank, ['\n'], 1, cs⟩ := by
  cases cs with
  | nil => rfl
  | cons d cs =>
      simp only [scanNext, doubleSymbol_of_newline]
      rfl

/-- The newlines of a text without faults give its last line. -/
theorem lastLine_eq (line : UInt32) (cs : List Char) (h : (scanFrom line cs).errors = []) :
    (scanFrom line cs).lastLine = line + .ofNat (cs.count '\n') := by
  fun_induction scanFrom line cs with
  | case1 line => exact (UInt32.add_zero line).symm
  | case2 line c cs reading later hitem ih =>
      have hclear : reading.Clear := fun faults hf => by rw [hitem] at hf; cases hf
      rw [Reading.Accounts.count (scanNext_accounts hclear), ih h, UInt32.ofNat_add,
        UInt32.add_assoc]
  | case3 line c cs reading later kind literal hitem token ih =>
      have hclear : reading.Clear := fun faults hf => by rw [hitem] at hf; cases hf
      rw [Reading.Accounts.count (scanNext_accounts hclear), ih h, UInt32.ofNat_add,
        UInt32.add_assoc]
  | case4 line c cs reading later faults hitem errors ih =>
      obtain ⟨herrors, hlater⟩ := List.append_eq_nil_iff.mp h
      have hclear : reading.Clear := fun faults' hf => by
        cases hitem.symm.trans hf
        exact List.map_eq_nil_iff.mp herrors
      rw [Reading.Accounts.count (scanNext_accounts hclear), ih hlater, UInt32.ofNat_add,
        UInt32.add_assoc]

/-- A text without faults, a newline and more text. -/
theorem scanFrom_joined (line : UInt32) (cs ds : List Char) (h : (scanFrom line cs).errors = []) :
    scanFrom line (cs ++ '\n' :: ds) =
      let later := scanFrom ((scanFrom line cs).lastLine + 1) ds
      { later with tokens := (scanFrom line cs).tokens ++ later.tokens } := by
  fun_induction scanFrom line cs with
  | case1 line =>
      rw [List.nil_append, scanFrom, scanNext_blank_newline]
      rfl
  | case2 line c cs reading later hitem ih =>
      have hclear : reading.Clear := fun faults hf => by rw [hitem] at hf; cases hf
      rw [List.cons_append, scanFrom, scanNext_newline c ds hclear]
      simp only [Reading.followedBy, show (scanNext c cs).item = _ from hitem]
      exact ih h
  | case3 line c cs reading later kind literal hitem token ih =>
      have hclear : reading.Clear := fun faults hf => by rw [hitem] at hf; cases hf
      rw [List.cons_append, scanFrom, scanNext_newline c ds hclear]
      simp only [Reading.followedBy, show (scanNext c cs).item = _ from hitem]
      rw [show scanFrom (line + .ofNat (scanNext c cs).newlines)
        ((scanNext c cs).rest ++ '\n' :: ds) = _ from ih h]
      rfl
  | case4 line c cs reading later faults hitem errors ih =>
      obtain ⟨herrors, hlater⟩ := List.append_eq_nil_iff.mp h
      obtain rfl := List.map_eq_nil_iff.mp herrors
      have hclear : reading.Clear := fun faults' hf => by cases hitem.symm.trans hf; rfl
      rw [List.cons_append, scanFrom, scanNext_newline c ds hclear]
      simp only [Reading.followedBy, show (scanNext c cs).item = _ from hitem]
      exact ih hlater

def newlines (source : String) : Nat := source.toList.count '\n'

/-- Two texts without faults, with a newline between them. -/
theorem scan_newline {a b : String} {ts us : List Token} (ha : scan a = .ok ts)
    (hb : scan b = .ok us) : ∃ front last, ts = front ++ [last] ∧ last.kind = .endOfInput ∧
      (∀ t ∈ front, t.kind ≠ .endOfInput) ∧
        scan (a ++ "\n" ++ b) = .ok (front ++ us.map (Token.moved (.ofNat (newlines a + 1)))) := by
  obtain ⟨hclearA, rfl⟩ := scan_eq_ok.mp ha
  obtain ⟨hclearB, rfl⟩ := scan_eq_ok.mp hb
  refine ⟨_, _, rfl, rfl, fun t ht => (scanFrom_spelled _ _ t ht).kind_ne, scan_eq_ok.mpr ?_⟩
  have htext : (a ++ "\n" ++ b).toList = a.toList ++ '\n' :: b.toList := by simp
  have hline : (scanFrom 1 a.toList).lastLine + 1 = 1 + .ofNat (newlines a + 1) := by
    rw [lastLine_eq 1 _ hclearA, newlines, UInt32.ofNat_add, UInt32.add_assoc]
    rfl
  rw [htext, scanFrom_joined 1 _ _ hclearA, hline, scanFrom_moved]
  constructor
  · simp [Scanned.moved, hclearB]
  · simp [Scanned.moved]
    rfl

end Token

end Classlet
