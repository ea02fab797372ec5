import Classlet.Token.Scan

/-! # How tokens are spelled

`Token.Spelled kind cs literal` says which characters `cs` a token of a kind is read from, and which
literal it carries.  Every token that is read off a text is spelled so (`scanNext_spelled`,
`scan_eq_ok`). -/

namespace Classlet.Token

/-- The characters and the literal of a token. -/
inductive Spelled : TokenKind → List Char → Option Literal → Prop where
  | symbol (s : Symbol) : Spelled (.symbol s) s.text.toList none
  | keyword (k : Keyword) : Spelled (.keyword k) k.text.toList k.literal?
  /-- A letter and characters of words, and no reserved word. -/
  | identifier {c : Char} {cs : List Char} :
      isLetter c = true → cs.all isWordChar = true →
      Keyword.ofText? (String.ofList (c :: cs)) = none → Spelled .identifier (c :: cs) none
  | string {cs : List Char} {text : String} : Spelled .string cs (some (.str text))
  | integer {cs : List Char} {n : Int64} :
      Numeral.signedDigits? false cs = some n → Spelled .integer cs (some (.int n))
  | real {cs : List Char} {x : Float} : Spelled .real cs (some (.real x))

/-- A token is spelled as its kind has it. -/
def IsSpelled (t : Token) : Prop := Spelled t.kind t.lexeme.toList t.literal

theorem IsSpelled.kind_ne {t : Token} (h : t.IsSpelled) : t.kind ≠ .endOfInput := fun hk => by
  unfold IsSpelled at h
  rw [hk] at h
  cases h

variable {c d : Char} {cs : List Char} {kind : TokenKind} {literal : Option Literal} {s : Symbol}

/-! ### One token -/

theorem text_singleSymbol (h : singleSymbol? c = some s) : s.text.toList = [c] := by
  unfold singleSymbol? at h
  split at h <;> cases h <;> rfl

theorem text_shortSymbol (h : shortSymbol? c = some s) : s.text.toList = [c] := by
  unfold shortSymbol? at h
  split at h <;> cases h <;> rfl

theorem text_doubleSymbol (h : doubleSymbol? c d = some s) : s.text.toList = [c, d] := by
  unfold doubleSymbol? at h
  split at h <;> cases h <;> rfl

theorem symbolReading_spelled {taken rest : List Char} (hs : s.text.toList = taken)
    (h : (symbolReading s taken rest).item = .token kind literal) :
    Spelled kind (symbolReading s taken rest).taken literal := by
  cases h
  cases hs
  exact .symbol s

theorem text_of_ofText {k : Keyword} {text : String} (h : Keyword.ofText? text = some k) :
    k.text = text := by
  unfold Keyword.ofText? at h
  simpa using List.find?_some h

theorem scanWord_spelled (hc : isLetter c = true)
    (h : (scanWord c cs).item = .token kind literal) :
    Spelled kind (scanWord c cs).taken literal := by
  unfold scanWord at h ⊢
  dsimp only at h ⊢
  split at h
  case h_1 k hk =>
    cases h
    have htext : c :: cs.takeWhile isWordChar = k.text.toList := by
      rw [text_of_ofText hk, String.toList_ofList]
    rw [htext]
    exact .keyword k
  case h_2 hk =>
    cases h
    exact .identifier hc List.all_takeWhile hk

theorem digits_spelled {ds : List Char} {faults : List (Nat × ScanFault)}
    (h : (match Numeral.signedDigits? false ds with
      | some n => Item.token .integer (some (.int n))
      | none => .faulty faults) = .token kind literal) : Spelled kind ds literal := by
  cases hn : Numeral.signedDigits? false ds with
  | some n =>
      rw [hn] at h
      cases h
      exact .integer hn
  | none =>
      rw [hn] at h
      cases h

theorem scanNumber_spelled (h : (scanNumber c cs).item = .token kind literal) :
    Spelled kind (scanNumber c cs).taken literal := by
  unfold scanNumber at h ⊢
  dsimp only at h ⊢
  split
  case h_1 d more hrest =>
    simp only [hrest] at h
    split at h
    case isTrue hd =>
      rw [if_pos hd]
      cases h
      exact .real
    case isFalse hd =>
      rw [if_neg hd]
      exact digits_spelled h
  case h_2 hrest =>
    split at h
    case h_1 d more hrest' => exact absurd hrest' (hrest d more)
    case h_2 => exact digits_spelled h

theorem scanString_spelled (h : (scanString cs).item = .token kind literal) :
    Spelled kind (scanString cs).taken literal := by
  unfold scanString at h
  dsimp only at h
  split at h
  · cases h
    exact .string
  · cases h

theorem scanSingle_spelled (h : (scanSingle c cs).item = .token kind literal) :
    Spelled kind (scanSingle c cs).taken literal := by
  unfold scanSingle at h ⊢
  cases hs : singleSymbol? c with
  | some s => 
      simp only [hs] at h
      exact symbolReading_spelled (text_singleSymbol hs) h
  | none =>
      cases ht : shortSymbol? c with
      | some s =>
          simp only [hs, ht] at h
          exact symbolReading_spelled (text_shortSymbol ht) h
      | none =>
          simp only [hs, ht] at h
          dsimp only
          split at h
          · cases h
          split at h
          · cases h
          split at h
          · cases h
          split at h
          · simpa [*] using scanString_spelled h
          split at h
          · simpa [*] using scanNumber_spelled h
          split at h
          case isTrue hc => simpa [*] using scanWord_spelled hc h
          case isFalse => cases h

theorem scanNext_spelled (h : (scanNext c cs).item = .token kind literal) :
    Spelled kind (scanNext c cs).taken literal := by
  cases cs with
  | nil => exact scanSingle_spelled h
  | cons d cs =>
      simp only [scanNext] at h ⊢
      cases hs : doubleSymbol? c d with
      | some s =>
          simp only [hs] at h
          exact symbolReading_spelled (text_doubleSymbol hs) h
      | none =>
          simp only [hs] at h
          dsimp only
          split at h
          case isTrue hslash => cases h
          case isFalse hslash =>
            rw [if_neg hslash]
            exact scanSingle_spelled h

/-! ### Whole texts -/

theorem scanFrom_spelled (line : UInt32) (cs : List Char) :
    ∀ t ∈ (scanFrom line cs).tokens, t.IsSpelled := by
  fun_induction scanFrom line cs with
  | case1 line => simp
  | case2 line c cs reading later hitem ih => exact ih
  | case3 line c cs reading later kind literal hitem token ih =>
      have htoken : token.IsSpelled := by
        have hspelled := scanNext_spelled hitem
        rwa [← String.toList_ofList (l := (scanNext c cs).taken)] at hspelled
      exact List.forall_mem_cons.mpr ⟨htoken, ih⟩
  | case4 line c cs reading later faults hitem errors ih => exact ih

/-- A text without faults has tokens and the end mark. -/
theorem scan_eq_ok {source : String} {ts : List Token} : scan source = .ok ts ↔
    (scanFrom 1 source.toList).errors = [] ∧
      ts = (scanFrom 1 source.toList).tokens ++
        [endOfInput (scanFrom 1 source.toList).lastLine] := by
  unfold scan
  dsimp only
  split
  case isTrue h => simp [List.isEmpty_iff.mp h, eq_comm]
  case isFalse h =>
    have hne : (scanFrom 1 source.toList).errors ≠ [] := fun he => h (List.isEmpty_iff.mpr he)
    simp [hne]

end Classlet.Token
