import Mathlib.Data.List.Forall2
import Classlet.Proofs.Grammar.ExpressionStatement
import Classlet.Proofs.Grammar.WellFormed
import Classlet.Proofs.Token.Reads

/-! # Printed expressions, read again

The printed text of an expression has parentheses around the operands of binary and logical
operators that are operations themselves, and around nothing else.  That is not enough behind a sign
or a `not`, before a postfix, and around a `not` beside a binary operator
(`print_negatedSum_changes`).  An expression is upright (`Fragment.Upright`) if no operand stands
there that would need them.

`Writes R s a` says that the text `s` reads as tokens that `R` relates to `a`.  By induction on the
expression, the text of an upright expression writes it at its level (`Expr.writes`), and read again
it is one statement with that expression (`parse_print`). -/

namespace Classlet

open Grammar

/-! ### Where parentheses are missing -/

def BinaryOp.level : BinaryOp → Level
  | eq | ne | lt | le | gt | ge => .comparison
  | bitOr => .bitOr
  | bitXor => .bitXor
  | bitAnd => .bitAnd
  | shl | shr => .shift
  | add | sub => .sum
  | mul | div | mod => .product
  | pow => .power

/-- The level of the rule that an expression is read with. -/
def Expr.level : Expr → Level
  | literal _ | var _ | tuple _ | list _ | lambda _ => .primary
  | call .. | attr .. | index .. | slice .. => .postfixed
  | binary op _ _ => op.level
  | unary .. => .sign
  | not _ => .negation
  | logical .and _ _ => .conjunction
  | logical .or _ _ => .disjunction

/-- An expression binds at least as tight as those of level `l`. -/
def Expr.BindsAt (x : Expr) (l : Level) : Prop := l.rank ≤ x.level.rank

instance (x : Expr) (l : Level) : Decidable (x.BindsAt l) := inferInstanceAs (Decidable (_ ≤ _))

namespace Fragment

/-- A fragment is upright if it needs no parentheses that the printed text does not have: the
operand of a sign or a `not`, what stands before a postfix, and an operand that is no operation. -/
def Upright : Fragment → Prop
  | expr (.unary _ x) => x.BindsAt .sign
  | expr (.not x) => x.BindsAt .negation
  | expr (.binary op x y) =>
    (x.isOperation = true ∨ x.BindsAt (if op = .pow then .postfixed else .sign)) ∧
      (y.isOperation = true ∨ y.BindsAt .sign)
  | expr (.call x _ _) | expr (.attr x _) | expr (.index x _) | expr (.slice x _ _) =>
    x.BindsAt .postfixed
  | _ => True

/-- A fragment is no lambda and no real literal, and a string literal has only plain characters. -/
def Plain : Fragment → Prop
  | expr (.literal (.real _)) | expr (.lambda _) => False
  | expr (.literal (.str s)) => s.toList.all Text.isPlain = true
  | _ => True

/-- A fragment that is read back from its printed text, if all below it are. -/
structure Printable (x : Fragment) : Prop where
  formed : x.WellFormed
  plain : x.Plain
  upright : x.Upright

end Fragment

/-- The sum of two variables behind a sign. -/
def negatedSum : Expr := .unary .neg (.binary .add (.var "a") (.var "b"))

/-- The printed text of `-(a + b)` has lost the parentheses, and is the sum of `-a` and `b`. -/
theorem print_negatedSum_changes :
    parse "-(a + b);" = .ok [.mk 1 (.expression negatedSum)] ∧
      parse (negatedSum.print ++ ";") =
        .ok [.mk 1 (.expression (.binary .add (.unary .neg (.var "a")) (.var "b")))] ∧
      negatedSum ≠ .binary .add (.unary .neg (.var "a")) (.var "b") := by
  refine ⟨by cbv, by cbv, ?_⟩
  rintro ⟨⟩

/-! ### Looser levels -/

namespace Grammar

/-- An expression of a level is one of every looser level. -/
theorem Derives.loosen {l l' : Level} {ts : List Token} {x : Expr} (h : Derives l' ts x)
    (hl : l.rank ≤ l'.rank) : Derives l ts x := by
  by_cases he : l.rank = l'.rank
  · rwa [Level.rank_inj he]
  · cases ht : l.tighter? with
    | some m =>
        have hm := Level.rank_of_tighter ht
        exact .tighter ht (Derives.loosen h (by omega))
    | none =>
        have hbound : l'.rank ≤ l.rank := by
          cases l <;> cases ht
          cases l' <;> decide
        omega
termination_by l'.rank - l.rank

theorem Level.rank_le_primary (l : Level) : l.rank ≤ primary.rank := by
  cases l <;> decide

end Grammar

/-! ### Texts that write a tree -/

open Token (Reads Ends Opens mark ofKeyword ofName)

variable {α : Type} {R : List Token → α → Prop} {s : String} {a : α} {x y : Expr} {l : Level}

/-- The text reads as tokens that `R` relates to `a`. -/
def ReadsAs (R : List Token → α → Prop) (s : String) (a : α) : Prop :=
  ∃ ts, Reads s.toList ts Ends ∧ R ts a

/-- The text reads as tokens that `R` relates to `a`, and makes no longer symbol of a sign or an
equals sign before it. -/
structure Writes (R : List Token → α → Prop) (s : String) (a : α) : Prop where
  opens : Opens s.toList
  reads : ReadsAs R s a

theorem Writes.mono {β : Type} {R' : List Token → β → Prop} {b : β} (h : Writes R s a)
    (himp : ∀ ts, R ts a → R' ts b) : Writes R' s b where
  opens := h.opens
  reads := h.reads.imp fun ts => And.imp_right (himp ts)

theorem Writes.loosen (h : Writes (Derives x.level) s x) (hl : x.BindsAt l) :
    Writes (Derives l) s x := h.mono fun _ hx => hx.loosen hl

/-- Any expression is one of the loosest level. -/
theorem Writes.expression {l' : Level} (h : Writes (Derives l') s x) :
    Writes (Derives .disjunction) s x := h.mono fun _ hx => hx.loosen (Nat.zero_le _)

theorem opens_of_wordChar {c : Char} (h : Token.isWordChar c = true) (cs : List Char) :
    Opens (c :: cs) := by
  refine ⟨c, cs, rfl, ?_, ?_⟩ <;> (rintro rfl; cases h)

theorem opens_of_isLetter {c : Char} (h : Token.isLetter c = true) (cs : List Char) :
    Opens (c :: cs) := opens_of_wordChar (by simp [Token.isWordChar, h]) cs

theorem IsName.opens {name : String} (h : IsName name) : Opens name.toList := by
  obtain ⟨c, cs, rfl, hc, -⟩ := Token.exists_of_name h
  rw [String.toList_ofList]
  exact opens_of_isLetter hc cs

/-! ### Lists -/

theorem toList_commas_cons (s t : String) (more : List String) :
    (Text.commas (s :: t :: more)).toList =
      s.toList ++ [',', ' '] ++ (Text.commas (t :: more)).toList := by
  simp [Text.commas, Text.join]

/-- Texts with commas between them write the list of what they write. -/
theorem writes_commas {texts : List String} {as : List α} (h : List.Forall₂ (Writes R) texts as)
    (hne : texts ≠ []) : Writes (Separated R) (Text.commas texts) as := by
  induction h with
  | nil => exact absurd rfl hne
  | @cons s a texts as hs hmore ih =>
      cases hmore with
      | nil => exact hs.mono fun _ => .one
      | cons _ _ =>
          obtain ⟨us, hus, ha⟩ := hs.reads
          obtain ⟨vs, hvs, has⟩ := (ih (List.cons_ne_nil _ _)).reads
          have hcomma : Reads (s.toList ++ [',', ' ']) (us ++ [mark .comma]) fun _ => True := by
            simpa using (hus.behind_single (s := .comma) rfl).append Token.reads_blank fun _ _ =>
              trivial
          have hreads := hcomma.append hvs fun _ _ => trivial
          rw [List.append_assoc us] at hreads
          constructor
          case opens =>
            rw [toList_commas_cons]
            exact (hs.opens.append _).append _
          case reads =>
            refine ⟨_, ?_, .more ha (rfl : (mark .comma).kind = _) has⟩
            rwa [toList_commas_cons]

theorem reads_commas {closing : Bool} {texts : List String} {as : List α}
    (h : List.Forall₂ (Writes R) texts as) :
    ReadsAs (Listed closing R) (Text.commas texts) as := by
  cases h with
  | nil => exact ⟨[], Token.reads_nil, .none⟩
  | cons hs hmore =>
      obtain ⟨ts, hts, has⟩ := (writes_commas (.cons hs hmore) (List.cons_ne_nil _ _)).reads
      exact ⟨ts, hts, .items has⟩

theorem forall₂_printAll : ∀ {es : List Expr},
    (∀ e ∈ es, Writes (Derives .disjunction) e.print e) →
      List.Forall₂ (Writes (Derives .disjunction)) (printAll es) es
  | [], _ => .nil
  | e :: es, h => by
      obtain ⟨he, hes⟩ := List.forall_mem_cons.mp h
      exact .cons he (forall₂_printAll hes)

/-! ### Primaries -/

theorem Token.Reads.ends {cs : List Char} {ts : List Token} (h : Reads cs ts fun _ => True) :
    Reads cs ts Ends := h.mono fun _ _ => trivial

section between
variable {β : Type} {R' : List Token → β → Prop} {b : β} {c d : Char} {left right : Symbol}
  (hc : Token.singleSymbol? c = some left) (hd : Token.singleSymbol? d = some right)
include hc

theorem opens_single (rest : List Char) : Opens (c :: rest) := by
  refine ⟨c, rest, rfl, ?_, ?_⟩ <;> (rintro rfl; cases hc)

include hd

theorem writes_between (h : ReadsAs R s a)
    (himp : ∀ ts, R ts a → R' (mark left :: (ts ++ [mark right])) b) :
    Writes R' (left.text ++ s ++ right.text) b := by
  obtain ⟨ts, hts, ha⟩ := h
  have htext : (left.text ++ s ++ right.text).toList = c :: (s.toList ++ [d]) := by
    simp [Token.text_singleSymbol hc, Token.text_singleSymbol hd]
  constructor
  case opens =>
    rw [htext]
    exact opens_single hc _
  case reads =>
    refine ⟨_, ?_, himp ts ha⟩
    rw [htext]
    exact (hts.bracketed hc hd).ends

theorem writes_postfix {t : String} {z : Expr} (hx : Writes (Derives .postfixed) t x)
    (h : ReadsAs R s a) (himp : ∀ us vs, Derives .postfixed us x → R vs a →
      Derives .postfixed (us ++ mark left :: (vs ++ [mark right])) z) :
    Writes (Derives .postfixed) (t ++ left.text ++ s ++ right.text) z := by
  obtain ⟨us, hus, hx'⟩ := hx.reads
  obtain ⟨vs, hvs, ha⟩ := h
  have htext : (t ++ left.text ++ s ++ right.text).toList =
      t.toList ++ c :: (s.toList ++ [d]) := by
    simp [Token.text_singleSymbol hc, Token.text_singleSymbol hd]
  constructor
  case opens =>
    rw [htext]
    exact hx.opens.append _
  case reads =>
    refine ⟨_, ?_, himp us vs hx' ha⟩
    rw [htext]
    exact hus.append (hvs.bracketed hc hd).ends fun rest _ => Token.ends_single hc _

end between

theorem writes_group (h : Writes (Derives .disjunction) s x) :
    Writes (Derives .primary) ("(" ++ s ++ ")") x :=
  writes_between (c := '(') (d := ')') rfl rfl h.reads fun _ hx => .group rfl hx rfl

theorem writes_keyword {k : Keyword} (hk : k ≠ .fun) (hkind : .keyword k ∈ literalKinds)
    {value : Literal} (hvalue : k.literal? = some value) :
    Writes (Derives .primary) k.text (.literal value) := by
  obtain ⟨c, cs, htext, hc, -⟩ := Token.exists_of_keyword k
  have hderives : Derives .primary [ofKeyword k] (.literal value) := .literal hkind hvalue
  refine ⟨htext ▸ opens_of_isLetter hc cs, _, ?_, hderives⟩
  exact (Token.reads_keyword hk).mono fun _ hrest => hrest.word

theorem writes_integer {n : Int64} (hn : 0 ≤ n.toInt) :
    Writes (Derives .primary) (Numeral.ofInt n.toInt) (.literal (.int n)) := by
  refine ⟨?_, _, Token.reads_integer hn, .literal (by simp [literalKinds]) rfl⟩
  rw [Numeral.ofInt, if_neg (Int.not_lt.mpr hn), String.toList_ofList]
  cases hds : Numeral.digits n.toInt.natAbs with
  | nil => exact absurd hds (Numeral.digits_ne_nil _)
  | cons c cs =>
      have hc : c.isDigit = true := Numeral.isDigit_of_mem_digits (hds ▸ List.mem_cons_self)
      exact opens_of_wordChar (by simp [Token.isWordChar, hc]) cs

theorem writes_quoted {text : String} (h : text.toList.all Text.isPlain = true) :
    Writes (Derives .primary) (Text.quote text) (.literal (.str text)) := by
  have hwritable : text.toList.all Text.isWritable = true :=
    List.all_eq_true.mpr fun c hc => Token.isWritable_of_isPlain (List.all_eq_true.mp h c hc)
  refine ⟨?_, _, (Token.reads_quoted hwritable).ends, .literal (by simp [literalKinds]) rfl⟩
  rw [Text.quote, String.toList_ofList]
  exact ⟨'"', _, rfl, by decide, by decide⟩

theorem writes_var {name : String} (h : IsName name) :
    Writes (Derives .primary) name (.var name) :=
  ⟨h.opens, [ofName name], (Token.reads_name h).mono fun _ hrest => hrest.word, .var rfl⟩

theorem writes_tuple : ∀ {es : List Expr}, (∀ e ∈ es, Writes (Derives .disjunction) e.print e) →
    Writes (Derives .primary) (Text.tuple (printAll es)) (.tuple es)
  | [], _ => by
      have hnothing : ReadsAs (fun ts (_ : Unit) => ts = []) "" () := ⟨[], Token.reads_nil, rfl⟩
      refine writes_between (c := '(') (d := ')') rfl rfl hnothing ?_
      rintro _ rfl
      exact .unit rfl rfl
  | [e], h => by
      have he := (h e List.mem_cons_self).reads
      have hcomma : ReadsAs (fun ts e => ∃ us, ts = us ++ [mark .comma] ∧ Derives .disjunction us e)
          (e.print ++ ",") e := by
        obtain ⟨us, hus, hderives⟩ := he
        refine ⟨_, ?_, us, rfl, hderives⟩
        simpa using (hus.behind_single (c := ',') rfl).ends
      have hwrites : Writes (Derives .primary) ("(" ++ (e.print ++ ",") ++ ")") (.tuple [e]) := by
        refine writes_between (c := '(') (d := ')') rfl rfl hcomma ?_
        rintro _ ⟨us, rfl, hderives⟩
        rw [List.append_assoc]
        exact .tuple rfl hderives rfl .none rfl
      rwa [← String.append_assoc, String.append_assoc] at hwrites
  | e :: e' :: es, h => by
      have hitems := writes_commas (forall₂_printAll h) (List.cons_ne_nil _ _)
      refine writes_between (c := '(') (d := ')') rfl rfl hitems.reads ?_
      rintro _ (_ | ⟨he, hcomma, hmore⟩)
      rw [List.append_assoc]
      exact .tuple rfl he hcomma (.items hmore) rfl

theorem writes_list {es : List Expr} (h : ∀ e ∈ es, Writes (Derives .disjunction) e.print e) :
    Writes (Derives .primary) ("[" ++ Text.commas (printAll es) ++ "]") (.list es) :=
  writes_between (c := '[') (d := ']') rfl rfl (reads_commas (forall₂_printAll h)) fun _ hes =>
    .list rfl hes rfl

/-! ### Postfixes -/

theorem writes_keywordArg {name : String} (hname : IsName name)
    (hx : Writes (Derives .disjunction) x.print x) :
    Writes (Argument (Derives .disjunction)) (name ++ "=" ++ x.print) (.inr (.mk name x)) := by
  obtain ⟨ts, hts, hderives⟩ := hx.reads
  have hvalue := Token.reads_equal.append hts fun rest _ => hx.opens.append rest
  have hreads := (Token.reads_name hname).append hvalue fun rest _ =>
    Token.wordEnds_cons (by decide) _
  have hkeyword : Argument (Derives .disjunction) (ofName name :: mark .equal :: ts)
      (.inr (.mk name x)) := .keyword rfl rfl hderives
  constructor
  case opens =>
    rw [String.append_assoc, String.toList_append]
    exact hname.opens.append _
  case reads =>
    refine ⟨_, ?_, hkeyword⟩
    simpa using hreads

theorem forall₂_printKeywords : ∀ {ks : List KeywordArg}, (∀ k ∈ ks, IsName k.name) →
    (∀ k ∈ ks, Writes (Derives .disjunction) k.value.print k.value) →
      List.Forall₂ (Writes (Argument (Derives .disjunction))) (printKeywords ks) (ks.map .inr)
  | [], _, _ => .nil
  | .mk name value :: ks, hnames, hvalues => by
      obtain ⟨hname, hnames⟩ := List.forall_mem_cons.mp hnames
      obtain ⟨hvalue, hvalues⟩ := List.forall_mem_cons.mp hvalues
      exact .cons (writes_keywordArg hname hvalue) (forall₂_printKeywords hnames hvalues)

theorem writes_call {as : List Expr} {ks : List KeywordArg}
    (hx : Writes (Derives .postfixed) x.print x) (hchecked : ArgumentsChecked as ks)
    (has : ∀ e ∈ as, Writes (Derives .disjunction) e.print e)
    (hks : ∀ k ∈ ks, Writes (Derives .disjunction) k.value.print k.value) :
    Writes (Derives .postfixed) (Expr.call x as ks).print (.call x as ks) := by
  have hpositional : List.Forall₂ (Writes (Argument (Derives .disjunction))) (printAll as)
      (as.map .inl) := by
    rw [List.forall₂_map_right_iff]
    exact (forall₂_printAll has).imp fun _ _ he => he.mono fun _ => .positional
  have harguments : ReadsAs (Listed false (Argument (Derives .disjunction)))
      (Text.commas (printAll as ++ printKeywords ks)) (as.map .inl ++ ks.map .inr) :=
    reads_commas (List.rel_append hpositional (forall₂_printKeywords hchecked.names hks))
  have hlimit : (as.map .inl ++ ks.map .inr : List (Expr ⊕ KeywordArg)).length ≤ argumentLimit := by
    rw [List.length_append, List.length_map, List.length_map]
    exact hchecked.limit
  have hadmits : Admits (as.map .inl ++ ks.map .inr) as ks := ⟨rfl, hlimit, hchecked.distinct⟩
  exact writes_postfix (c := '(') (d := ')') rfl rfl hx harguments fun _ _ hus hvs =>
    .call hus rfl hvs rfl hadmits

theorem writes_index {i : Expr} (hx : Writes (Derives .postfixed) x.print x)
    (hi : Writes (Derives .disjunction) i.print i) :
    Writes (Derives .postfixed) (Expr.index x i).print (.index x i) :=
  writes_postfix (c := '[') (d := ']') rfl rfl hx hi.reads fun _ _ hus hvs =>
    .index hus rfl hvs rfl

theorem reads_printBound : ∀ {bound : Option Expr},
    (∀ e ∈ bound, Writes (Derives .disjunction) e.print e) →
      ReadsAs (Bound (Derives .disjunction)) (printBound bound) bound
  | none, _ => ⟨[], Token.reads_nil, .none⟩
  | some e, h => by
      obtain ⟨ts, hts, he⟩ := (h e rfl).reads
      exact ⟨ts, hts, .some he⟩

theorem writes_slice {start stop : Option Expr} (hx : Writes (Derives .postfixed) x.print x)
    (hstart : ∀ e ∈ start, Writes (Derives .disjunction) e.print e)
    (hstop : ∀ e ∈ stop, Writes (Derives .disjunction) e.print e) :
    Writes (Derives .postfixed) (Expr.slice x start stop).print (.slice x start stop) := by
  obtain ⟨vs, hvs, hstart⟩ := reads_printBound hstart
  obtain ⟨ws, hws, hstop⟩ := reads_printBound hstop
  have hbounds : ReadsAs (fun ts (_ : Unit) => ts = vs ++ mark .colon :: ws)
      (printBound start ++ ":" ++ printBound stop) () := by
    refine ⟨_, ?_, rfl⟩
    simpa using (hvs.behind_single (c := ':') rfl).append hws fun _ _ => trivial
  have hslice : Writes (Derives .postfixed)
      (x.print ++ "[" ++ (printBound start ++ ":" ++ printBound stop) ++ "]")
      (.slice x start stop) := by
    refine writes_postfix (c := '[') (d := ']') rfl rfl hx hbounds ?_
    rintro us _ hus rfl
    rw [List.append_assoc, List.cons_append]
    exact .slice hus rfl hstart rfl hstop rfl
  simpa only [Expr.print, String.append_assoc] using hslice

theorem writes_attr {name : String} (hx : Writes (Derives .postfixed) x.print x)
    (hname : IsName name) :
    Writes (Derives .postfixed) (Expr.attr x name).print (.attr x name) := by
  obtain ⟨us, hus, hderives⟩ := hx.reads
  obtain ⟨c, cs, htext, hc, -⟩ := Token.exists_of_name hname
  have hletter : name.toList = c :: cs := by rw [htext, String.toList_ofList]
  have hdot : Reads (['.'] ++ name.toList) ([mark .dot] ++ [ofName name]) Token.WordEnds := by
    refine Token.reads_dot.append (Token.reads_name hname) fun rest _ => ?_
    rw [hletter]
    rintro d ⟨⟩
    exact hc
  have hends : ∀ rest, Ends ('.' :: name.toList ++ rest) := fun rest => by
    refine ⟨Token.wordEnds_cons rfl _, ?_⟩
    rw [hletter]
    rintro d more ⟨⟩
    exact Token.isDigit_of_isLetter hc
  have hattr : Derives .postfixed (us ++ [mark .dot, ofName name]) (.attr x name) :=
    .attr hderives rfl rfl
  have hprint : (Expr.attr x name).print.toList = x.print.toList ++ '.' :: name.toList := by
    simp [Expr.print]
  constructor
  case opens =>
    rw [hprint]
    exact hx.opens.append _
  case reads =>
    refine ⟨_, ?_, hattr⟩
    rw [hprint]
    exact (hus.append hdot fun rest _ => hends rest).mono fun _ hrest => hrest.word

/-! ### Operators -/

theorem reads_sign (op : UnaryOp) : ∃ symbol, (.symbol symbol, op) ∈ signs ∧
    Opens op.symbol.toList ∧ Reads op.symbol.toList [mark symbol] Opens := by
  cases op with
  | neg => exact ⟨.minus, by decide, ⟨'-', [], rfl, by decide, by decide⟩, Token.reads_minus⟩
  | pos =>
      exact ⟨.plus, by decide, opens_single (c := '+') rfl [],
        (Token.reads_single rfl).mono fun _ _ => trivial⟩
  | invert =>
      exact ⟨.tilde, by decide, opens_single (c := '~') rfl [],
        (Token.reads_single rfl).mono fun _ _ => trivial⟩

theorem writes_unary {op : UnaryOp} (hx : Writes (Derives .sign) x.print x) :
    Writes (Derives .sign) (Expr.unary op x).print (.unary op x) := by
  obtain ⟨ts, hts, hderives⟩ := hx.reads
  obtain ⟨symbol, hsign, hopens, hread⟩ := reads_sign op
  have hunary : Derives .sign ([mark symbol] ++ ts) (.unary op x) := .sign hsign hderives
  constructor
  case opens =>
    rw [Expr.print, String.toList_append]
    exact hopens.append _
  case reads =>
    refine ⟨_, ?_, hunary⟩
    rw [Expr.print, String.toList_append]
    exact hread.append hts fun rest _ => hx.opens.append rest

theorem writes_not (hx : Writes (Derives .negation) x.print x) :
    Writes (Derives .negation) (Expr.not x).print (.not x) := by
  obtain ⟨ts, hts, hderives⟩ := hx.reads
  have hnot : Derives .negation ([ofKeyword .not] ++ [] ++ ts) (.not x) := .not rfl hderives
  have hword := (Token.reads_keyword (k := .not) (by decide)).append Token.reads_blank
    fun rest _ => Token.wordEnds_cons (by decide) rest
  have hprint : (Expr.not x).print.toList = Keyword.not.text.toList ++ [' '] ++ x.print.toList := by
    simp [Expr.print, Keyword.text]
  constructor
  case opens =>
    rw [hprint]
    exact (opens_of_isLetter (c := 'n') (by decide) _).append _
  case reads =>
    refine ⟨_, ?_, hnot⟩
    rw [hprint]
    exact hword.append hts fun _ _ => trivial

/-- An operand stands at every level at which it binds, or in parentheses. -/
theorem writes_operand (hx : Writes (Derives x.level) x.print x)
    (hl : x.isOperation = true ∨ x.BindsAt l) :
    Writes (Derives l) (parenthesized x.isOperation x.print) x := by
  cases hop : x.isOperation with
  | true => exact (writes_group hx.expression).mono fun _ h => h.loosen l.rank_le_primary
  | false => exact hx.loosen (hl.resolve_left (by simp [hop]))

/-- Two operands with an operator and blanks between them. -/
theorem writes_infix {s t op : String} {token : Token} {l₁ l₂ : Level} {z : Expr}
    (hx : Writes (Derives l₁) s x) (hy : Writes (Derives l₂) t y)
    (hop : Reads op.toList [token] fun rest => ∃ more, rest = ' ' :: more)
    (himp : ∀ us vs, Derives l₁ us x → Derives l₂ vs y → Derives l (us ++ token :: vs) z) :
    Writes (Derives l) (s ++ " " ++ op ++ " " ++ t) z := by
  obtain ⟨us, hus, hx'⟩ := hx.reads
  obtain ⟨vs, hvs, hy'⟩ := hy.reads
  have hleft := hus.append Token.reads_blank fun rest _ =>
    Token.ends_cons (by decide) (by decide) rest
  have hmiddle := hop.append Token.reads_blank fun rest _ => ⟨rest, rfl⟩
  have hreads := (hleft.append hmiddle fun _ _ => trivial).append hvs fun _ _ => trivial
  constructor
  case opens =>
    simp only [String.toList_append, List.append_assoc]
    exact hx.opens.append _
  case reads =>
    refine ⟨_, ?_, himp us vs hx' hy'⟩
    simpa using hreads

theorem reads_operator (op : BinaryOp) :
    Reads op.symbol.toList [mark op.token] fun rest => ∃ more, rest = ' ' :: more := by
  cases op <;> exact Token.reads_symbol rfl fun _ ⟨_, h⟩ => h ▸ rfl

/-- The operators of a binary level take their right operand from the next tighter one. -/
theorem BinaryOp.operators_level {op : BinaryOp} (h : op ≠ .pow) : ∃ l,
    op.level.tighter? = some l ∧ l.rank ≤ Level.sign.rank ∧
      (.symbol op.token, .inl op) ∈ op.level.operators := by
  cases op with
  | pow => exact absurd rfl h
  | _ => exact ⟨_, rfl, by decide, by simp [level, token, Level.operators]⟩

theorem writes_binary {op : BinaryOp} (hx : Writes (Derives x.level) x.print x)
    (hy : Writes (Derives y.level) y.print y)
    (hupright : (Fragment.expr (.binary op x y)).Upright) :
    Writes (Derives op.level) (Expr.binary op x y).print (.binary op x y) := by
  obtain ⟨hleft, hright⟩ := hupright
  by_cases hpow : op = .pow
  case pos =>
    subst hpow
    exact writes_infix (writes_operand hx hleft) (writes_operand hy hright) (reads_operator _)
      fun _ _ hus hvs => .power rfl hus hvs
  case neg =>
    rw [if_neg hpow] at hleft
    obtain ⟨l, ht, hl, hop⟩ := BinaryOp.operators_level hpow
    have hlevel : op.level.rank ≤ Level.sign.rank := by
      have := Level.rank_of_tighter ht
      omega
    have hx' := (writes_operand hx hleft).mono fun _ h => h.loosen hlevel
    have hy' := (writes_operand hy hright).mono fun _ h => h.loosen hl
    have hjoin : ∀ us vs, Derives op.level us x → Derives l vs y →
        Derives op.level (us ++ mark op.token :: vs) (joined (.inl op) x y) :=
      fun _ _ hus hvs => .join ht hop hus hvs
    exact writes_infix hx' hy' (reads_operator op) hjoin

theorem writes_logical {op : Connective} (hx : Writes (Derives x.level) x.print x)
    (hy : Writes (Derives y.level) y.print y) :
    Writes (Derives (Expr.logical op x y).level) (Expr.logical op x y).print (.logical op x y) := by
  -- what is no operation binds tighter than the connectives
  have hbinds : ∀ x : Expr, x.isOperation = true ∨ x.BindsAt .negation := by
    intro x
    cases x with
    | binary | logical => exact .inl rfl
    | _ => exact .inr (by simp [Expr.BindsAt, Expr.level, Level.rank])
  have hx' := writes_operand hx (hbinds x)
  have hy' := writes_operand hy (hbinds y)
  have hword : ∀ k : Keyword, k ≠ .fun → Reads k.text.toList [ofKeyword k]
      fun rest => ∃ more, rest = ' ' :: more := fun k hk => by
    refine (Token.reads_keyword hk).mono ?_
    rintro _ ⟨more, rfl⟩
    exact Token.wordEnds_cons (by decide) more
  cases op with
  | and =>
      have hjoin : ∀ us vs, Derives .conjunction us x → Derives .negation vs y →
          Derives .conjunction (us ++ ofKeyword .and :: vs) (joined (.inr .and) x y) :=
        fun _ _ hus hvs => .join rfl (List.mem_singleton_self _) hus hvs
      exact writes_infix (hx'.mono fun _ h => h.loosen (by decide)) hy'
        (hword .and (by decide)) hjoin
  | or =>
      have hjoin : ∀ us vs, Derives .disjunction us x → Derives .conjunction vs y →
          Derives .disjunction (us ++ ofKeyword .or :: vs) (joined (.inr .or) x y) :=
        fun _ _ hus hvs => .join rfl (List.mem_singleton_self _) hus hvs
      exact writes_infix hx'.expression (hy'.mono fun _ h => h.loosen (by decide))
        (hword .or (by decide)) hjoin

/-! ### All expressions -/

theorem Expr.sizeOf_part {x y : Expr} (h : .expr y ∈ x.parts) : sizeOf y < sizeOf x := by
  cases x with
  | literal | var | lambda => simp [parts] at h
  | tuple es | list es =>
      have := List.sizeOf_lt_of_mem (by simpa [parts] using h : y ∈ es)
      simp only [tuple.sizeOf_spec, list.sizeOf_spec]
      omega
  | unary _ x | not x | attr x _ =>
      obtain rfl : y = x := by simpa [parts] using h
      simp only [unary.sizeOf_spec, not.sizeOf_spec, attr.sizeOf_spec]
      omega
  | binary _ x z | logical _ x z | index x z =>
      obtain rfl | rfl : y = x ∨ y = z := by simpa [parts] using h
      all_goals
        simp only [binary.sizeOf_spec, logical.sizeOf_spec, index.sizeOf_spec]
        omega
  | call f as ks =>
      simp only [call.sizeOf_spec]
      obtain rfl | hy | ⟨k, hk, rfl⟩ : y = f ∨ y ∈ as ∨ ∃ k ∈ ks, k.value = y := by
        simpa [parts] using h
      · omega
      · have := List.sizeOf_lt_of_mem hy
        omega
      · have hmem := List.sizeOf_lt_of_mem hk
        have hvalue : sizeOf k.value < sizeOf k := by
          cases k
          simp only [KeywordArg.value, KeywordArg.mk.sizeOf_spec]
          omega
        omega
  | slice x start stop =>
      simp only [slice.sizeOf_spec]
      obtain rfl | rfl | rfl : y = x ∨ start = some y ∨ stop = some y := by simpa [parts] using h
      · omega
      all_goals
        simp only [Option.some.sizeOf_spec]
        omega

theorem Expr.writes (x : Expr) (h : (Fragment.expr x).Everywhere Fragment.Printable) :
    Writes (Derives x.level) x.print x := by
  have hpart : ∀ y, .expr y ∈ x.parts → Writes (Derives y.level) y.print y := fun y hy =>
    have := Expr.sizeOf_part hy
    Expr.writes y (h.parts _ hy)
  obtain ⟨hformed, hplain, hupright⟩ := h.here
  cases x with
  | literal value =>
      cases value with
      | nil => exact writes_keyword (k := .nil) (by decide) (by decide) rfl
      | bool b =>
          cases b with
          | true => exact writes_keyword (k := .true) (by decide) (by decide) rfl
          | false => exact writes_keyword (k := .false) (by decide) (by decide) rfl
      | int n => exact writes_integer hformed
      | real r => exact hplain.elim
      | str text => exact writes_quoted hplain
  | var name => exact writes_var hformed
  | tuple es => exact writes_tuple fun e he => (hpart e (List.mem_map_of_mem he)).expression
  | list es => exact writes_list fun e he => (hpart e (List.mem_map_of_mem he)).expression
  | unary op x => exact writes_unary ((hpart x (by simp [parts])).loosen hupright)
  | not x => exact writes_not ((hpart x (by simp [parts])).loosen hupright)
  | binary op x y =>
      exact writes_binary (hpart x (by simp [parts])) (hpart y (by simp [parts])) hupright
  | logical op x y => exact writes_logical (hpart x (by simp [parts])) (hpart y (by simp [parts]))
  | call x as ks =>
      refine writes_call ((hpart x (by simp [parts])).loosen hupright) hformed ?_ ?_
      · exact fun e he => (hpart e (by simp [parts, he])).expression
      · intro k hk
        have hmem : .expr k.value ∈ (call x as ks).parts := by
          simpa [parts] using .inr (.inr ⟨k, hk, rfl⟩)
        exact (hpart k.value hmem).expression
  | attr x name => exact writes_attr ((hpart x (by simp [parts])).loosen hupright) hformed
  | index x i =>
      exact writes_index ((hpart x (by simp [parts])).loosen hupright)
        (hpart i (by simp [parts])).expression
  | slice x start stop =>
      refine writes_slice ((hpart x (by simp [parts])).loosen hupright) ?_ ?_
      · exact fun e he => (hpart e (by simp_all [parts])).expression
      · exact fun e he => (hpart e (by simp_all [parts])).expression
  | lambda decl => exact hplain.elim
termination_by sizeOf x

/-! ### Whole texts -/

/-- A text that writes an expression, with a semicolon behind it, is one statement. -/
theorem parse_of_writes (h : Writes (Derives .disjunction) s x) :
    parse (s ++ ";") = .ok [.mk 1 (.expression x)] := by
  obtain ⟨ts, hts, hx⟩ := h.reads
  have hscan : Token.scan (s ++ ";") = .ok (ts ++ [mark .semicolon, Token.endOfInput 1]) := by
    have hread : Token.Reads (s ++ ";").toList (ts ++ [mark .semicolon]) fun _ => True := by
      rw [String.toList_append]
      exact hts.behind_single rfl
    rw [hread.scan_eq trivial, List.append_assoc]
    rfl
  have hclean : Parser.Clean (ts.length + 2 + 1) (ts ++ [mark .semicolon, Token.endOfInput 1]) := by
    refine ⟨by simp, List.forall_mem_append.mpr ⟨fun t ht => (hts.ordinary t ht).noFun, ?_⟩⟩
    simp [mark, Token.endOfInput]
  have hline : (Parser.current (ts ++ [mark .semicolon, Token.endOfInput 1])).line = 1 := by
    cases ts with
    | nil => rfl
    | cons t ts => exact (hts.ordinary t List.mem_cons_self).line
  have hrules := exact_rulesAt (Nat.lt_succ_self (ts.length + 2))
  have hlength : (ts ++ [mark .semicolon, Token.endOfInput 1]).length = ts.length + 2 := by simp
  have hnext := hx.next_ne (k := .endOfInput) (by decide) [mark .semicolon, Token.endOfInput 1]
  simp only [parse, hscan, parseTokens_eq_ok, hlength, program_eq_single_iff hnext,
    declaration_eq_ok hrules hclean, expressionStatement_eq_ok hrules hclean]
  exact ⟨[Token.endOfInput 1], ⟨hline.symm, ts, mark .semicolon, rfl, rfl, .single hx⟩, rfl⟩

/-- **An upright expression of a text, without lambdas and real literals and with plain strings
only, is printed as a text that reads as this expression.** -/
theorem parse_print {source : String} {code : List Statement} (h : parse source = .ok code)
    (hpart : (Fragment.expr x).PartOf code) (hplain : (Fragment.expr x).Everywhere Fragment.Plain)
    (hupright : (Fragment.expr x).Everywhere Fragment.Upright) :
    parse (x.print ++ ";") = .ok [.mk 1 (.expression x)] := by
  obtain ⟨y, hy, hx⟩ := hpart
  have hformed : x.Formed := (parse_formed h y hy).within hx
  exact parse_of_writes (x.writes fun z hz =>
    ⟨(hformed z hz).wellFormed, hplain z hz, hupright z hz⟩).expression

/-- The condition `not -a ** f(b) * c`. -/
def negatedProduct : Expr :=
  .not (.binary .mul
    (.unary .neg (.binary .pow (.var "a") (.call (.var "f") [.var "b"] []))) (.var "c"))

theorem parse_print_negatedProduct :
    parse "while not -a ** f(b) * c \x7b\x7d" = .ok [.mk 1 (.whileDo negatedProduct [])] ∧
      parse (negatedProduct.print ++ ";") = .ok [.mk 1 (.expression negatedProduct)] := by
  have hparse : parse "while not -a ** f(b) * c \x7b\x7d" =
      .ok [.mk 1 (.whileDo negatedProduct [])] := by cbv
  have hpart : (Fragment.expr negatedProduct).PartOf [.mk 1 (.whileDo negatedProduct [])] :=
    ⟨_, List.mem_singleton_self _, .single List.mem_cons_self⟩
  have hplain : (Fragment.expr negatedProduct).Everywhere Fragment.Plain := by
    simp [negatedProduct, Fragment.everywhere_iff, Fragment.parts, Expr.parts, Fragment.Plain]
  have hupright : (Fragment.expr negatedProduct).Everywhere Fragment.Upright := by
    simp [negatedProduct, Fragment.everywhere_iff, Fragment.parts, Expr.parts, Fragment.Upright]
    decide
  exact ⟨hparse, parse_print hparse hpart hplain hupright⟩

end Classlet
