import Classlet.Grammar.Statement
import Classlet.Proofs.Grammar.Fragments
import Classlet.Proofs.Grammar.Refusal
import Classlet.Proofs.Grammar.Yields
import Classlet.Proofs.Numeral.Digits
import Classlet.Proofs.Token.Spelling

/-! # What the parser makes sure of

A fragment is well formed (`Fragment.WellFormed`) if it has what the parser checks where it puts the
fragment together: a `break` stands in a loop and a `return` in a function, a name is spelled as an
identifier, an integer literal is not negative, and a call has not too many arguments and distinct
names for those by name.  The attributes of a class have such names as well
(`Fragment.AttributesNamed`).

Each rule of the grammar reads fragments that are well formed at every depth if the rules that it
refers back to do (`Parser.Gives`), and takes the line of every statement from one of its tokens.
So every tree of a text is well formed (`parse_formed`), and every statement in it stands on the
line of a token (`parse_formedOn`). -/

namespace Classlet

open Grammar Classlet.Parser Fragment

/-- A token of a text: the end mark, or one that is spelled as its kind has it. -/
def Token.Genuine (t : Token) : Prop := t.kind = .endOfInput ∨ t.IsSpelled

open Token (Genuine)

theorem Token.Genuine.spelled {t : Token} (h : t.Genuine) (hk : t.kind ≠ .endOfInput) :
    t.IsSpelled := h.resolve_left hk

/-- A text that is spelled as an identifier, and is not reserved. -/
def IsName (name : String) : Prop := Token.Spelled .identifier name.toList none

theorem Token.Genuine.isName {t : Token} (h : t.Genuine) (hk : t.kind = .identifier) :
    IsName t.lexeme := by
  have hspelled := h.spelled (by simp [hk])
  unfold Token.IsSpelled at hspelled
  rw [hk] at hspelled
  generalize t.literal = value at hspelled
  unfold IsName
  generalize t.lexeme.toList = cs at hspelled ⊢
  cases hspelled with
  | identifier hc hcs hname => exact .identifier hc hcs hname

/-! ### Well-formed fragments -/

/-- The arguments of a call: not too many, and distinct names. -/
structure ArgumentsChecked (arguments : List Expr) (keywords : List KeywordArg) : Prop where
  limit : arguments.length + keywords.length ≤ maxArguments
  distinct : (keywords.map KeywordArg.name).Nodup
  names : ∀ k ∈ keywords, IsName k.name

/-- A fragment has what the parser checks of it. -/
def Fragment.WellFormed : Fragment → Prop
  | expr (.literal (.int n)) => 0 ≤ n.toInt
  | expr (.var name) | expr (.attr _ name) => IsName name
  | expr (.call _ arguments keywords) => ArgumentsChecked arguments keywords
  | statement w (.mk _ .breakLoop) => w.inLoop = true
  | statement w (.mk _ (.returnValues _)) => w.inFunction = true
  | _ => True

/-- If a fragment defines a class, the attributes of the class have identifiers as names. -/
def Fragment.AttributesNamed : Fragment → Prop
  | statement _ (.mk _ (.classDecl _ _ members _)) =>
    ∀ name value, ClassMember.attr name value ∈ members → IsName name
  | _ => True

/-- A fragment has what the parser checks of it, its names included. -/
structure Fragment.Checked (x : Fragment) : Prop where
  wellFormed : x.WellFormed
  attributes : x.AttributesNamed

/-- If a fragment is a statement, its line is one of these. -/
def Fragment.OnLine (lines : UInt32 → Prop) : Fragment → Prop
  | statement _ (.mk line _) => lines line
  | _ => True

/-- A fragment has what the parser checks of it, and stands on one of these lines if it is a
statement. -/
structure Fragment.CheckedOn (lines : UInt32 → Prop) (x : Fragment) : Prop extends Checked x where
  line : x.OnLine lines

/-- All fragments of a list are checked at every depth. -/
abbrev Fragment.AllFormed (xs : List Fragment) : Prop := Throughout Checked xs

/-- An expression is checked at every depth. -/
abbrev Expr.Formed (x : Expr) : Prop := (Fragment.expr x).Everywhere Checked

section lines
variable (lines : UInt32 → Prop)

/-- All fragments of a list are checked at every depth, with their statements on these lines. -/
abbrev Fragment.AllFormedOn (xs : List Fragment) : Prop := Throughout (CheckedOn lines) xs

abbrev Expr.FormedOn (x : Expr) : Prop := (Fragment.expr x).Everywhere (CheckedOn lines)

abbrev FunctionDecl.FormedOn (decl : FunctionDecl) : Prop :=
  (Fragment.function decl).Everywhere (CheckedOn lines)

/-- The same of a statement, given what it stands in. -/
abbrev Statement.FormedOn (w : Surroundings) (code : Statement) : Prop :=
  (Fragment.statement w code).Everywhere (CheckedOn lines)

/-- A token of a text whose tokens, up to the end mark, stand on these lines. -/
structure Token.FromText (t : Token) : Prop where
  genuine : t.Genuine
  line : t.kind ≠ .endOfInput → lines t.line

/-- From the tokens of a text, only what is good is read. -/
abbrev Parser.Gives {α : Type} (p : Parser α) (good : α → Prop) : Prop :=
  p.Yields (Token.FromText lines) good

end lines

variable {lines : UInt32 → Prop}

theorem Expr.formedOn {x : Expr} (hx : (Fragment.expr x).WellFormed)
    (h : AllFormedOn lines x.parts) : x.FormedOn lines := .of_parts ⟨⟨hx, trivial⟩, trivial⟩ h

theorem FunctionDecl.formedOn {decl : FunctionDecl} (h : AllFormedOn lines decl.parts) :
    decl.FormedOn lines := .of_parts ⟨⟨trivial, trivial⟩, trivial⟩ h

theorem Statement.formedOn {w : Surroundings} {line : UInt32} {kind : StatementKind}
    (hline : lines line) (hkind : (Fragment.statement w (.mk line kind)).Checked)
    (h : AllFormedOn lines (kind.parts w)) : Statement.FormedOn lines w (.mk line kind) :=
  .of_parts ⟨hkind, hline⟩ h

/-- A literal that a token carries has no sign. -/
theorem Token.Genuine.literal {t : Token} (h : t.Genuine) (hk : t.kind ≠ .endOfInput)
    {value : Literal} (hvalue : t.literal = some value) : (Expr.literal value).FormedOn lines := by
  refine Expr.formedOn ?_ throughout_nil
  have hspelled := h.spelled hk
  unfold Token.IsSpelled at hspelled
  rw [hvalue] at hspelled
  cases value with
  | int n =>
      generalize t.kind = k at hspelled
      generalize t.lexeme.toList = cs at hspelled
      generalize hliteral : some (Literal.int n) = literal at hspelled
      cases hspelled with
      | symbol | identifier | string | real => cases hliteral
      | keyword k => cases k <;> cases hliteral
      | integer hn =>
          cases hliteral
          exact Numeral.toInt_nonneg_of_digits hn
  | nil | bool | real | str => trivial

/-! ### The rules of the grammar -/

instance (keyword : Token) : Takes (operatorName keyword) where
  subset := by
    rintro (_ | ⟨t, ts⟩) name rest he
    · cases he
    have htail : ts ⊆ t :: ts := List.subset_cons_self t ts
    simp only [operatorName] at he
    split at he
    case h_1 => cases he
    case h_2 =>
      have hbracket : Takes (do
          let _ ← symbol .rightBracket (.afterWord "[")
          if ← acceptSymbol .equal then pure "[]=" else pure "[]" : Parser String) := inferInstance
      exact List.Subset.trans (hbracket.subset _ _ _ he) htail
    case h_3 =>
      cases he
      exact htail
    case h_4 =>
      split at he <;> cases he
      exact htail
    case h_5 =>
      split at he <;> cases he
      exact htail
    case h_6 => cases he

theorem takes_moduleParts : ∀ fuel, Takes (moduleParts fuel)
  | 0 => inferInstanceAs (Takes (pure [] : Parser (List String)))
  | fuel + 1 => by
      have := takes_moduleParts fuel
      unfold moduleParts
      infer_instance

instance (rules : Rules) : Takes (importPath rules) where
  subset ts path rest he := by
    have := takes_moduleParts rules.passes
    have hstandard : Takes (standardPath rules) := by
      unfold standardPath
      infer_instance
    unfold importPath at he
    split at he
    case h_1 => exact hstandard.subset _ _ _ he
    case h_2 =>
      split at he
      case isTrue =>
        split at he <;> cases he
        exact List.subset_cons_self _ _
      case isFalse => exact hstandard.subset _ _ _ he

/-- The rules that others refer back to read well formed fragments. -/
structure Grammar.Rules.Formed (rules : Rules) (lines : UInt32 → Prop) : Prop where
  expression : Gives lines rules.expression (Expr.FormedOn lines)
  signed : Gives lines rules.signed (Expr.FormedOn lines)
  typeExpr : Gives lines rules.typeExpr (Expr.FormedOn lines)
  declaration : ∀ w, Gives lines (rules.declaration w) (Statement.FormedOn lines w)
  /-- At the end there is no expression. -/
  refuses : ∀ ts, (current ts).kind = .endOfInput → Refuses rules.expression ts

namespace Grammar.Rules.Formed

variable {rules : Rules} (h : rules.Formed lines)
include h

theorem statementsUntilBrace (w : Surroundings) : ∀ fuel,
    Gives lines (statementsUntilBrace (rules.declaration w) fuel) fun body =>
      AllFormedOn lines (ofBody w body)
  | 0 => .pure throughout_nil
  | fuel + 1 => by
      refine .andThen fun _ => .ite (.pure throughout_nil) ?_
      refine .andThen fun _ => .ite (.pure throughout_nil) ?_
      exact .bind (h.declaration w) fun _ hs => .bind (statementsUntilBrace w fuel) fun _ hmore =>
        .pure (throughout_cons.mpr ⟨hs, hmore⟩)

theorem block (w : Surroundings) :
    Gives lines (block rules w) fun body => AllFormedOn lines (ofBody w body) :=
  .bind (h.statementsUntilBrace w _) fun _ hbody => .andThen fun _ => .pure hbody

/-! ### Expressions -/

/-- The arguments of a call are checked and well formed. -/
def ArgumentsFormed (lines : UInt32 → Prop) (r : List Expr × List KeywordArg) : Prop :=
  AllFormedOn lines (r.1.map expr ++ r.2.map fun k => .expr k.value) ∧ ArgumentsChecked r.1 r.2

omit h in
theorem argumentsFormed_nil : ArgumentsFormed lines ([], []) where
  left := throughout_nil
  right := ⟨Nat.zero_le _, .nil, fun _ hk => by cases hk⟩

/-- An argument is well formed, and allowed behind those before it. -/
def ArgumentFormed (lines : UInt32 → Prop) (count : Nat) (keywords : List KeywordArg)
    (a : Expr ⊕ KeywordArg) : Prop :=
  count < maxArguments ∧ match a with
    | .inl value => value.FormedOn lines
    | .inr k => k.value.FormedOn lines ∧ IsName k.name ∧ k.name ∉ keywords.map KeywordArg.name

omit h in
theorem ArgumentsFormed.add {positional : List Expr} {keywords : List KeywordArg}
    (hread : ArgumentsFormed lines (positional, keywords)) :
    ∀ {a}, ArgumentFormed lines (positional.length + keywords.length) keywords a →
      ArgumentsFormed lines (match a with
        | .inl value => (positional ++ [value], keywords)
        | .inr keyword => (positional, keywords ++ [keyword]))
  | .inl value, ⟨hcount, hvalue⟩ => by
      obtain ⟨hformed, hchecked⟩ := hread
      refine ⟨?_, ?_, hchecked.distinct, hchecked.names⟩
      · simp only [List.map_append, throughout_append] at hformed ⊢
        exact ⟨⟨hformed.1, throughout_single.mpr hvalue⟩, hformed.2⟩
      · simp only [List.length_append, List.length_singleton]
        omega
  | .inr k, ⟨hcount, hvalue, hname, hfresh⟩ => by
      obtain ⟨hformed, hchecked⟩ := hread
      refine ⟨?_, ?_, ?_, ?_⟩
      · simp only [List.map_append, throughout_append] at hformed ⊢
        exact ⟨hformed.1, hformed.2, throughout_single.mpr hvalue⟩
      · simp only [List.length_append, List.length_singleton]
        omega
      · rw [List.map_append, List.nodup_append]
        refine ⟨hchecked.distinct, by simp, fun a ha b hb hab => hfresh ?_⟩
        obtain rfl : b = k.name := by simpa using hb
        rwa [← hab]
      · exact List.forall_mem_append.mpr ⟨hchecked.names, List.forall_mem_singleton.mpr hname⟩

theorem argument (count : Nat) (keywords : List KeywordArg) :
    Gives lines (argument rules count keywords) (ArgumentFormed lines count keywords) := by
  unfold Grammar.argument
  refine .iteOf (fun _ => .fail _) fun hcount => ?_
  have hlimit : count < maxArguments := Nat.lt_of_not_le hcount
  refine .andThen fun _ => .andThen fun _ => .ite ?_ (.ite (.fail _) ?_)
  · refine .bind (.identifier _) fun name hname => .andThen fun _ => ?_
    refine .iteOf (fun _ => .failAt _ _) fun hfresh => .bind h.expression fun _ hx => .pure ?_
    refine ⟨hlimit, hx, hname.2.genuine.isName hname.1, ?_⟩
    simpa [KeywordArg.name] using hfresh
  · exact .bind h.expression fun _ hx => .pure ⟨hlimit, hx⟩

theorem arguments : ∀ fuel positional keywords, ArgumentsFormed lines (positional, keywords) →
    Gives lines (arguments rules fuel positional keywords) (ArgumentsFormed lines)
  | 0, _, _, hread => .pure hread
  | fuel + 1, positional, keywords, hread => by
      have hmore : ∀ positional keywords, ArgumentsFormed lines (positional, keywords) →
          Gives lines (do
            if ← acceptSymbol .comma then Grammar.arguments rules fuel positional keywords
            else pure (positional, keywords)) (ArgumentsFormed lines) :=
        fun positional keywords hr => .andThen fun _ =>
          .ite (arguments fuel positional keywords hr) (.pure hr)
      refine .bind (h.argument _ _) fun next hnext => ?_
      cases next with
      | inl value => exact hmore _ _ (hread.add hnext)
      | inr keyword => exact hmore _ _ (hread.add hnext)

theorem callRest {callee : Expr} (hcallee : callee.FormedOn lines) :
    Gives lines (callRest rules callee) (Expr.FormedOn lines) := by
  have hclosing : ∀ r, ArgumentsFormed lines r → Gives lines (do
      let _ ← symbol .rightParen .afterArguments
      pure (.call callee r.1 r.2)) (Expr.FormedOn lines) := fun r hr => .andThen fun _ =>
    .pure (Expr.formedOn hr.2 (throughout_cons.mpr ⟨hcallee, hr.1⟩))
  exact .andThen fun _ => .ite (hclosing ([], []) argumentsFormed_nil)
    (.bind (h.arguments _ _ _ argumentsFormed_nil) hclosing)

theorem sliceRest {object : Expr} (hobject : object.FormedOn lines) {start : Option Expr}
    (hstart : AllFormedOn lines (start.toList.map expr)) :
    Gives lines (indexRest.sliceRest rules object start) (Expr.FormedOn lines) := by
  have hclosing : ∀ stop : Option Expr, AllFormedOn lines (stop.toList.map expr) → Gives lines (do
      let _ ← symbol .rightBracket .afterSlice
      pure (.slice object start stop)) (Expr.FormedOn lines) := by
    refine fun stop hstop => .andThen fun _ => .pure (Expr.formedOn trivial ?_)
    simpa [Expr.parts] using ⟨hobject, hstart, hstop⟩
  refine .andThen fun _ => .ite (hclosing none throughout_nil) ?_
  exact .bind h.expression fun x hx => hclosing (some x) (throughout_single.mpr hx)

theorem indexRest {object : Expr} (hobject : object.FormedOn lines) :
    Gives lines (indexRest rules object) (Expr.FormedOn lines) := by
  refine .andThen fun _ => .ite (h.sliceRest hobject throughout_nil) ?_
  refine .bind h.expression fun first hfirst => .andThen fun _ => .ite ?_ ?_
  · exact h.sliceRest hobject (throughout_single.mpr hfirst)
  · refine .andThen fun _ => .pure (Expr.formedOn trivial ?_)
    simpa [Expr.parts] using ⟨hobject, hfirst⟩

theorem postfixes : ∀ fuel {x : Expr}, x.FormedOn lines →
    Gives lines (postfixes rules fuel x) (Expr.FormedOn lines)
  | 0, _, hx => .pure hx
  | fuel + 1, x, hx => by
      refine .andThen fun _ => .ite (.bind (h.callRest hx) fun _ hy => postfixes fuel hy) ?_
      refine .andThen fun _ => .ite (.bind (h.indexRest hx) fun _ hy => postfixes fuel hy) ?_
      refine .andThen fun _ => .ite (.bind (.identifier _) fun name hname => ?_) (.pure hx)
      exact postfixes fuel <|
        Expr.formedOn (hname.2.genuine.isName hname.1) (throughout_single.mpr hx)

theorem parenRest : Gives lines (parenRest rules) (Expr.FormedOn lines) := by
  refine .andThen fun _ => .ite (.pure (Expr.formedOn trivial throughout_nil)) ?_
  refine .bind h.expression fun first hfirst => .andThen fun _ => .ite ?_ ?_
  · refine .bind (h.expression.itemsUntil _) fun more hmore => .andThen fun _ => .pure ?_
    exact Expr.formedOn trivial (throughout_cons.mpr ⟨hfirst, throughout_map.mpr hmore⟩)
  · exact .andThen fun _ => .pure hfirst

theorem listRest : Gives lines (listRest rules) (Expr.FormedOn lines) :=
  .bind (h.expression.itemsUntil _) fun _ helements => .andThen fun _ =>
    .pure (Expr.formedOn trivial (throughout_map.mpr helements))

/-! ### Functions -/

theorem parameter :
    Gives lines (parameter rules) fun p => AllFormedOn lines (p.typeExpr.toList.map expr) := by
  refine .andThen fun variadic => .andThen fun name => .andThen fun _ => .ite ?_ ?_
  · refine .bind h.typeExpr fun x hx => ?_
    exact .pure (a := Param.mk _ (some x) _) (throughout_single.mpr hx)
  · exact .pure (a := Param.mk _ none _) throughout_nil

theorem parametersFrom : ∀ fuel count,
    Gives lines (parametersFrom rules fuel count) fun ps =>
      AllFormedOn lines ((ps.filterMap Param.typeExpr).map expr)
  | 0, _ => .pure throughout_nil
  | fuel + 1, count => by
      have hadd : ∀ {p : Param} {ps : List Param}, AllFormedOn lines (p.typeExpr.toList.map expr) →
          AllFormedOn lines ((ps.filterMap Param.typeExpr).map expr) →
          AllFormedOn lines (((p :: ps).filterMap Param.typeExpr).map expr) := by
        intro p ps hp hps
        cases he : p.typeExpr <;> simp_all
      refine .ite (.fail _) (.bind h.parameter fun p hp => .andThen fun _ => .ite ?_ ?_)
      · exact .bind (parametersFrom fuel _) fun ps hps => .pure (hadd hp hps)
      · exact .pure (hadd hp throughout_nil)

theorem parameters :
    Gives lines (parameters rules) fun ps =>
      AllFormedOn lines ((ps.filterMap Param.typeExpr).map expr) := by
  have hclosing : ∀ ps : List Param, AllFormedOn lines ((ps.filterMap Param.typeExpr).map expr) →
      Gives lines (do
        let _ ← symbol .rightParen .afterParameters
        pure ps) fun ps => AllFormedOn lines ((ps.filterMap Param.typeExpr).map expr) :=
    fun _ hps => .andThen fun _ => .pure hps
  exact .andThen fun _ => .ite (hclosing [] throughout_nil) (.bind (h.parametersFrom _ _) hclosing)

theorem returnTypes :
    Gives lines (returnTypes rules) fun xs => AllFormedOn lines (xs.map expr) := by
  refine .andThen fun _ => .ite (.andThen fun _ => .ite ?_ ?_) (.pure throughout_nil)
  · exact .bind (h.typeExpr.items _) fun _ hxs => .andThen fun _ => .pure (throughout_map.mpr hxs)
  · exact .bind h.typeExpr fun _ hx => .pure (throughout_single.mpr hx)

theorem functionBody :
    Gives lines (functionBody rules) fun body => AllFormedOn lines (ofBody .function body) :=
  h.block .function

end Grammar.Rules.Formed

/-- A function is well formed if its classes are and its body is, which stands in no loop. -/
theorem FunctionDecl.formedOn_mk {name : String} {params : List Param} {returns : List Expr}
    {body : List Statement} {line : UInt32}
    (hparams : AllFormedOn lines ((params.filterMap Param.typeExpr).map expr))
    (hreturns : AllFormedOn lines (returns.map expr))
    (hbody : AllFormedOn lines (ofBody .function body)) :
    (FunctionDecl.mk name params returns body line).FormedOn lines := by
  refine FunctionDecl.formedOn ?_
  rw [FunctionDecl.parts, List.map_append]
  exact throughout_append.mpr ⟨throughout_append.mpr ⟨hparams, hreturns⟩, hbody⟩

namespace Grammar.Rules.Formed

variable {rules : Rules} (h : rules.Formed lines)
include h

theorem lambdaRest (line : UInt32) : Gives lines (lambdaRest rules line) (Expr.FormedOn lines) := by
  refine .andThen fun _ => .bind h.parameters fun params hparams =>
    .bind h.returnTypes fun returns hreturns => .andThen fun _ => ?_
  have hlambda : ∀ body, AllFormedOn lines (ofBody .function body) →
      Gives lines (pure (.lambda (.mk "<lambda>" params returns body line)) : Parser Expr)
        (Expr.FormedOn lines) := fun body hbody => .pure <| Expr.formedOn trivial <|
    throughout_single.mpr (FunctionDecl.formedOn_mk hparams hreturns hbody)
  refine .ite ?_ (.andThen fun _ => .bind h.functionBody hlambda)
  refine .peekThen h.expression h.refuses fun first hfirst hkind value hvalue => ?_
  exact hlambda [.mk first.line (.returnValues [value])] <| throughout_single.mpr <|
    Statement.formedOn (hfirst.line hkind) ⟨rfl, trivial⟩ (throughout_single.mpr hvalue)

theorem primary : Gives lines (primary rules) (Expr.FormedOn lines) := by
  rintro (_ | ⟨t, ts⟩) hts x rest he
  · cases he
  obtain ⟨ht, hts⟩ := List.forall_mem_cons.mp hts
  simp only [Grammar.primary] at he
  split at he
  case isTrue hk =>
    split at he
    case h_1 value hvalue =>
      cases he
      exact ⟨ht.genuine.literal (fun heof => by simp [heof, isLiteralKind] at hk) hvalue, hts⟩
    case h_2 => cases he
  split at he
  case isTrue hk =>
    cases he
    exact ⟨Expr.formedOn (ht.genuine.isName hk) throughout_nil, hts⟩
  split at he
  · exact h.parenRest _ hts _ _ he
  split at he
  · exact h.listRest _ hts _ _ he
  split at he
  · exact h.lambdaRest _ _ hts _ _ he
  · cases he

theorem postfixed : Gives lines (postfixed rules) (Expr.FormedOn lines) :=
  .bind h.primary fun _ hx => h.postfixes _ hx

theorem power : Gives lines (power rules) (Expr.FormedOn lines) := by
  refine .bind h.postfixed fun base hbase => .andThen fun _ => .ite ?_ (.pure hbase)
  exact .bind h.signed fun exponent hexponent => .pure <| Expr.formedOn trivial <|
    throughout_pair.mpr ⟨hbase, hexponent⟩

theorem next_signed : Gives lines (Grammar.signed rules) (Expr.FormedOn lines) := by
  intro ts hts
  induction ts with
  | nil => exact h.power [] hts
  | cons t ts ih =>
      intro x rest he
      unfold Grammar.signed at he
      split at he
      · split at he
        · rename_i hrun
          cases he
          obtain ⟨hx, hrest⟩ := ih (List.forall_mem_cons.mp hts).2 _ _ hrun
          exact ⟨Expr.formedOn trivial (throughout_single.mpr hx), hrest⟩
        · cases he
      · exact h.power _ hts _ _ he

omit h in
theorem join_binaryOn {operators : List BinaryOp} {k : TokenKind} {combine : Expr → Expr → Expr}
    (hk : binaryOn operators k = some combine) {x y : Expr} (hx : x.FormedOn lines)
    (hy : y.FormedOn lines) :
    (combine x y).FormedOn lines := by
  unfold binaryOn at hk
  split at hk
  · split at hk
    · split at hk
      · cases hk
        exact Expr.formedOn trivial (throughout_pair.mpr ⟨hx, hy⟩)
      · cases hk
    · cases hk
  · cases hk

omit h in
theorem join_logicalOn {word : Keyword} {op : Connective} {k : TokenKind}
    {combine : Expr → Expr → Expr} (hk : logicalOn word op k = some combine) {x y : Expr}
    (hx : x.FormedOn lines) (hy : y.FormedOn lines) : (combine x y).FormedOn lines := by
  unfold logicalOn at hk
  split at hk
  · cases hk
    exact Expr.formedOn trivial (throughout_pair.mpr ⟨hx, hy⟩)
  · cases hk

theorem binary : ∀ levels, Gives lines (binary rules levels) (Expr.FormedOn lines)
  | [] => h.next_signed
  | _ :: tighter => (binary tighter).chained join_binaryOn _

theorem negation : Gives lines (negation rules) (Expr.FormedOn lines) := by
  intro ts hts
  induction ts with
  | nil => exact h.binary _ [] hts
  | cons t ts ih =>
      intro x rest he
      unfold Grammar.negation at he
      split at he
      · split at he
        · rename_i hrun
          cases he
          obtain ⟨hx, hrest⟩ := ih (List.forall_mem_cons.mp hts).2 _ _ hrun
          exact ⟨Expr.formedOn trivial (throughout_single.mpr hx), hrest⟩
        · cases he
      · exact h.binary _ _ hts _ _ he

theorem conjunction : Gives lines (conjunction rules) (Expr.FormedOn lines) :=
  h.negation.chained join_logicalOn _

theorem next_expression : Gives lines (Grammar.expression rules) (Expr.FormedOn lines) :=
  h.conjunction.chained join_logicalOn _

theorem rangeBound : Gives lines (rangeBound rules) (Expr.FormedOn lines) := h.binary boundLevels

/-! ### Declarations -/

theorem functionRest (name : String) (line : UInt32) :
    Gives lines (functionRest rules name line) fun decl =>
      decl.FormedOn lines ∧ decl.line = line :=
  .andThen fun _ => .bind h.parameters fun _ hparams => .bind h.returnTypes fun _ hreturns =>
    .andThen fun _ => .bind h.functionBody fun _ hbody =>
      .pure ⟨FunctionDecl.formedOn_mk hparams hreturns hbody, rfl⟩

theorem function : Gives lines (function rules) fun decl =>
    decl.FormedOn lines ∧ lines decl.line :=
  .bind (.identifier _) fun name hname =>
    (h.functionRest name.lexeme name.line).mono fun decl hdecl =>
      ⟨hdecl.1, hdecl.2 ▸ hname.2.line (by simp [hname.1])⟩

/-- The members of a class are well formed, and its attributes have identifiers as names. -/
def MembersFormed (lines : UInt32 → Prop) (members : List ClassMember) : Prop :=
  AllFormedOn lines (members.flatMap ClassMember.parts) ∧
    ∀ name value, ClassMember.attr name value ∈ members → IsName name

omit h in
theorem membersFormed_nil : MembersFormed lines [] := ⟨throughout_nil, fun _ _ hm => by cases hm⟩

theorem classMember :
    Gives lines (classMember rules) fun member => MembersFormed lines [member] := by
  have hfunction : ∀ {member : ClassMember} {decl : FunctionDecl}, decl.FormedOn lines →
      member.parts = [.function decl] → MembersFormed lines [member] := by
    intro member decl hdecl hparts
    refine ⟨?_, fun name value hm => ?_⟩
    · rw [List.flatMap_singleton, hparts]
      exact throughout_single.mpr hdecl
    · rw [← List.mem_singleton.mp hm] at hparts
      cases hparts
  refine .andThen fun _ => .ite ?_ (.andThen fun operator => ?_)
  · exact .bind h.function fun _ hdecl => .pure (hfunction hdecl.1 rfl)
  · cases operator with
    | some keyword =>
        refine .andThen fun name => .bind (h.functionRest name _) fun _ hdecl => .pure ?_
        exact hfunction hdecl.1 rfl
    | none =>
        refine .bind (.identifier _) fun name hname => .andThen fun _ =>
          .bind h.expression fun _ hvalue => .andThen fun _ => .pure ⟨?_, fun other value hm => ?_⟩
        · exact throughout_single.mpr hvalue
        · cases List.mem_singleton.mp hm
          exact hname.2.genuine.isName hname.1

theorem classMembers : ∀ fuel, Gives lines (classMembers rules fuel) (MembersFormed lines)
  | 0 => .pure membersFormed_nil
  | fuel + 1 => by
      refine .andThen fun _ => .ite (.pure membersFormed_nil) ?_
      refine .andThen fun _ => .ite (.pure membersFormed_nil) ?_
      refine .bind h.classMember fun m hm => .bind (classMembers fuel) fun _ hmore => .pure ?_
      refine ⟨?_, fun name value hmem => ?_⟩
      · rw [List.flatMap_cons]
        exact throughout_append.mpr ⟨by simpa using hm.1, hmore.1⟩
      · rcases List.mem_cons.mp hmem with rfl | hmem
        · exact hm.2 name value List.mem_cons_self
        · exact hmore.2 name value hmem

theorem classRest (w : Surroundings) {keyword : Token} (hline : lines keyword.line)
    (isStruct : Bool) :
    Gives lines (classRest rules keyword isStruct) (Statement.FormedOn lines w) := by
  refine .andThen fun name => .andThen fun _ => ?_
  have hclass : ∀ base : Option Expr, AllFormedOn lines (base.toList.map expr) → Gives lines (do
      let _ ← symbol .leftBrace .beforeClassBody
      let members ← Grammar.classMembers rules rules.passes
      let _ ← symbol .rightBrace .afterClassBody
      pure (.mk keyword.line (.classDecl name.lexeme base members isStruct)))
      (Statement.FormedOn lines w) := by
    refine fun base hbase => .andThen fun _ => .bind (h.classMembers _) fun members hmembers =>
      .andThen fun _ => .pure (Statement.formedOn hline ⟨trivial, hmembers.2⟩ ?_)
    exact throughout_append.mpr ⟨hbase, hmembers.1⟩
  refine .ite ?_ (hclass none throughout_nil)
  refine .bind h.expression fun base hbase => .andThen fun _ => ?_
  exact hclass (some base) (throughout_single.mpr hbase)

omit h in
theorem importRest (w : Surroundings) {keyword : Token} (hline : lines keyword.line) :
    Gives lines (importRest rules keyword) (Statement.FormedOn lines w) := by
  have hclosing : ∀ path newName, Gives lines (do
      let _ ← symbol .semicolon .afterImport
      pure (.mk keyword.line (.importModule path newName))) (Statement.FormedOn lines w) :=
    fun path newName => .andThen fun _ =>
      .pure (Statement.formedOn hline ⟨trivial, trivial⟩ throughout_nil)
  refine .andThen fun path => .andThen fun _ => .ite ?_ (hclosing path none)
  exact .andThen fun name => hclosing path (some name.lexeme)

/-! ### Statements -/

theorem elifBranches (w : Surroundings) : ∀ fuel, Gives lines (elifBranches rules w fuel)
    fun branches => AllFormedOn lines (branches.flatMap (Branch.parts w))
  | 0 => .pure throughout_nil
  | fuel + 1 => by
      refine .andThen fun _ => .ite ?_ (.pure throughout_nil)
      refine .bind h.expression fun condition hcondition => .andThen fun _ =>
        .bind (h.block w) fun body hbody => .bind (elifBranches w fuel) fun more hmore => .pure ?_
      exact throughout_cons.mpr ⟨hcondition, throughout_append.mpr ⟨hbody, hmore⟩⟩

theorem ifRest (w : Surroundings) {line : UInt32} (hline : lines line) :
    Gives lines (ifRest rules w line) (Statement.FormedOn lines w) := by
  refine .bind h.expression fun condition hcondition => .andThen fun _ =>
    .bind (h.block w) fun body hbody => .bind (h.elifBranches w _) fun more hmore => ?_
  have hif : ∀ otherwise : Option (List Statement),
      AllFormedOn lines (ofBody w (otherwise.getD [])) →
      Gives lines
        (pure (.mk line (.ifElse (.mk condition body :: more) otherwise)) : Parser Statement)
        (Statement.FormedOn lines w) := by
    refine fun otherwise hotherwise => .pure (Statement.formedOn hline ⟨trivial, trivial⟩ ?_)
    refine throughout_append.mpr ⟨?_, hotherwise⟩
    exact throughout_cons.mpr ⟨hcondition, throughout_append.mpr ⟨hbody, hmore⟩⟩
  refine .andThen fun _ => .ite (.andThen fun _ => ?_) (hif none throughout_nil)
  exact .bind (h.block w) fun body hbody => hif (some body) hbody

theorem loopBody (w : Surroundings) :
    Gives lines (loopBody rules w) fun body => AllFormedOn lines (ofBody w.looping body) :=
  .andThen fun _ => h.block w.looping

theorem whileRest (w : Surroundings) {line : UInt32} (hline : lines line) :
    Gives lines (whileRest rules w line) (Statement.FormedOn lines w) :=
  .bind h.expression fun _ hcondition => .bind (h.loopBody w) fun _ hbody =>
    .pure (Statement.formedOn hline ⟨trivial, trivial⟩ (throughout_cons.mpr ⟨hcondition, hbody⟩))

theorem forRest (w : Surroundings) {line : UInt32} (hline : lines line) :
    Gives lines (forRest rules w line) (Statement.FormedOn lines w) :=
  .andThen fun _ => .andThen fun _ => .bind h.rangeBound fun _ hstart => .andThen fun _ =>
    .bind h.rangeBound fun _ hstop => .bind (h.loopBody w) fun _ hbody =>
      .pure (Statement.formedOn hline ⟨trivial, trivial⟩
        (throughout_cons.mpr ⟨hstart, throughout_cons.mpr ⟨hstop, hbody⟩⟩))

theorem catchClauses (w : Surroundings) : ∀ fuel, Gives lines (catchClauses rules w fuel)
    fun clauses => AllFormedOn lines (clauses.flatMap (CatchClause.parts w))
  | 0 => .pure throughout_nil
  | fuel + 1 => by
      refine .andThen fun keyword => ?_
      cases keyword with
      | none => exact .pure throughout_nil
      | some keyword =>
          refine .andThen fun _ => .andThen fun _ => .andThen fun _ =>
            .bind h.expression fun errorType htype => .andThen fun _ => .andThen fun _ =>
              .bind (h.block w) fun body hbody => .bind (catchClauses w fuel) fun more hmore => ?_
          exact .pure (throughout_cons.mpr ⟨htype, throughout_append.mpr ⟨hbody, hmore⟩⟩)

theorem tryRest (w : Surroundings) {line : UInt32} (hline : lines line) :
    Gives lines (tryRest rules w line) (Statement.FormedOn lines w) :=
  .andThen fun _ => .bind (h.block w) fun _ hbody => .bind (h.catchClauses w _)
    fun _ hclauses => .ite (.fail _) <| .pure <|
      Statement.formedOn hline ⟨trivial, trivial⟩ (throughout_append.mpr ⟨hbody, hclauses⟩)

theorem returnRest (w : Surroundings) {keyword : Token} (hline : lines keyword.line) :
    Gives lines (returnRest rules w keyword) (Statement.FormedOn lines w) := by
  unfold Grammar.returnRest
  split
  case isTrue => exact .failAt _ _
  case isFalse hinside =>
    have hfunction : w.inFunction = true := by simpa using hinside
    have hclosing : ∀ values : List Expr, (∀ x ∈ values, x.FormedOn lines) → Gives lines (do
        let _ ← symbol .semicolon .afterReturnValue
        pure (.mk keyword.line (.returnValues values))) (Statement.FormedOn lines w) :=
      fun values hvalues => .andThen fun _ => .pure <|
        Statement.formedOn hline ⟨hfunction, trivial⟩ (throughout_map.mpr hvalues)
    refine .andThen fun _ => .ite (hclosing [] fun _ hx => by cases hx) ?_
    exact .bind (h.expression.items _) hclosing

omit h in
theorem breakRest (w : Surroundings) {keyword : Token} (hline : lines keyword.line) :
    Gives lines (breakRest w keyword) (Statement.FormedOn lines w) := by
  unfold Grammar.breakRest
  split
  case isTrue => exact .failAt _ _
  case isFalse hinside =>
    have hloop : w.inLoop = true := by simpa using hinside
    exact .andThen fun _ => .pure (Statement.formedOn hline ⟨hloop, trivial⟩ throughout_nil)

theorem throwRest (w : Surroundings) {line : UInt32} (hline : lines line) :
    Gives lines (throwRest rules line) (Statement.FormedOn lines w) :=
  .bind h.expression fun _ hvalue => .andThen fun _ =>
    .pure (Statement.formedOn hline ⟨trivial, trivial⟩ (throughout_single.mpr hvalue))

omit h in
theorem tupleOrSingle : ∀ {xs : List Expr}, (∀ x ∈ xs, x.FormedOn lines) →
    (tupleOrSingle xs).FormedOn lines
  | [], _ => Expr.formedOn trivial throughout_nil
  | [x], hxs => hxs x List.mem_cons_self
  | _ :: _ :: _, hxs => Expr.formedOn trivial (throughout_map.mpr hxs)

theorem expressionStatement (w : Surroundings) :
    Gives lines (expressionStatement rules) (Statement.FormedOn lines w) := by
  refine .peekThen (h.next_expression.items _)
    (fun ts hend => Refuses.bind (expression_refuses_end hend))
    fun first hfirst hkind exprs hexprs => .andThen fun equal => ?_
  have hline := hfirst.line hkind
  cases equal with
  | none =>
      refine .andThen fun _ => .pure (Statement.formedOn hline ⟨trivial, trivial⟩ ?_)
      exact throughout_cons.mpr ⟨tupleOrSingle hexprs, throughout_nil⟩
  | some equal =>
      dsimp only
      split
      · exact .failAt _ _
      · refine .bind (h.next_expression.items _) fun values hvalues => .andThen fun _ =>
          .pure (Statement.formedOn hline ⟨trivial, trivial⟩ ?_)
        rw [StatementKind.parts, List.map_append]
        exact throughout_append.mpr ⟨throughout_map.mpr hexprs, throughout_map.mpr hvalues⟩

theorem keywordRest? (w : Surroundings) (k : Keyword) {t : Token} (hline : lines t.line)
    {p : Parser Statement} (hp : keywordRest? rules w k t = some p) :
    Gives lines p (Statement.FormedOn lines w) := by
  unfold Grammar.keywordRest? at hp
  split at hp <;> cases hp
  case h_1 => exact h.classRest w hline false
  case h_2 => exact h.classRest w hline true
  case h_3 => exact importRest w hline
  case h_4 => exact h.ifRest w hline
  case h_5 => exact h.whileRest w hline
  case h_6 => exact h.forRest w hline
  case h_7 =>
    exact .bind (h.loopBody w) fun _ hbody =>
      .pure (Statement.formedOn hline ⟨trivial, trivial⟩ hbody)
  case h_8 => exact h.tryRest w hline
  case h_9 => exact h.returnRest w hline
  case h_10 => exact breakRest w hline
  case h_11 => exact h.throwRest w hline

theorem functionStatement (w : Surroundings) :
    Gives lines (functionStatement rules) (Statement.FormedOn lines w) :=
  .bind h.function fun _ hdecl =>
    .pure (Statement.formedOn hdecl.2 ⟨trivial, trivial⟩ (throughout_single.mpr hdecl.1))

theorem next_declaration (w : Surroundings) :
    Gives lines (Grammar.declaration rules w) (Statement.FormedOn lines w) := by
  rintro (_ | ⟨t, ts⟩) hts s rest he
  · exact h.expressionStatement w _ hts _ _ he
  obtain ⟨ht, hbehind⟩ := List.forall_mem_cons.mp hts
  simp only [Grammar.declaration] at he
  split at he
  case h_1 hkind =>
    have hline := ht.line (by simp [hkind])
    have hblock : Gives lines (do
        let body ← Grammar.block rules w
        pure (Statement.mk t.line (.block body []))) (Statement.FormedOn lines w) :=
      .bind (h.block w) fun _ hbody => .pure <| Statement.formedOn hline ⟨trivial, trivial⟩ <|
        throughout_append.mpr ⟨hbody, throughout_nil⟩
    exact hblock _ hbehind _ _ he
  case h_2 =>
    split at he
    · exact h.functionStatement w _ hbehind _ _ he
    · exact h.expressionStatement w _ hts _ _ he
  case h_3 k _ hkind =>
    have hline := ht.line (by simp [hkind])
    split at he
    case h_1 p hp => exact h.keywordRest? w k hline hp _ hbehind _ _ he
    case h_2 => exact h.expressionStatement w _ hts _ _ he
  case h_4 => exact h.expressionStatement w _ hts _ _ he

end Grammar.Rules.Formed

/-! ### Whole texts -/

namespace Grammar

/-- The rules read fragments that are checked at every depth. -/
theorem formed_rulesAt (lines : UInt32 → Prop) (passes : Nat) : ∀ n, (rulesAt passes n).Formed lines
  | 0 => ⟨.fail _, .fail _, .fail _, fun _ => .fail _, fun _ _ => nofun⟩
  | n + 1 =>
    have h := formed_rulesAt lines passes n
    ⟨h.next_expression, h.next_signed, h.postfixed, h.next_declaration,
      fun _ => expression_refuses_end⟩

theorem formed_program {declaration : Parser Statement} {w : Surroundings}
    (h : Gives lines declaration (Statement.FormedOn lines w)) : ∀ fuel ts,
    (∀ t ∈ ts, t.FromText lines) → (program declaration fuel ts).2 = [] →
      AllFormedOn lines (ofBody w (program declaration fuel ts).1)
  | 0, _, _, _ => throughout_nil
  | fuel + 1, ts, hts, hok => by
      unfold program at hok ⊢
      split
      case isTrue => exact throughout_nil
      case isFalse hgoes =>
        rw [if_neg hgoes] at hok
        cases hrun : declaration ts with
        | ok r =>
            rw [hrun] at hok
            obtain ⟨hs, hrest⟩ := h _ hts _ _ hrun
            exact throughout_cons.mpr ⟨hs, formed_program h fuel _ hrest hok⟩
        | error failure =>
            rw [hrun] at hok
            cases hok

theorem formed_parseTokens {ts : List Token} {code : List Statement}
    (hts : ∀ t ∈ ts, t.FromText lines) (h : parseTokens ts = .ok code) :
    AllFormedOn lines (ofBody .module code) := by
  have hrules := formed_rulesAt lines (ts.length + 1) (ts.length + 1)
  have hprogram := formed_program (hrules.declaration .module) (ts.length + 1) ts hts
  unfold parseTokens at h
  dsimp only at h
  split at h
  case isTrue hok =>
    cases h
    exact hprogram (List.isEmpty_iff.mp hok)
  case isFalse => cases h

end Grammar

theorem Token.genuine_scan {source : String} {ts : List Token} (h : Token.scan source = .ok ts) :
    ∀ t ∈ ts, t.Genuine := by
  obtain ⟨-, rfl⟩ := Token.scan_eq_ok.mp h
  refine List.forall_mem_append.mpr ⟨fun t ht => .inr (Token.scanFrom_spelled _ _ t ht), ?_⟩
  exact List.forall_mem_singleton.mpr (.inl rfl)

/-- A token of a text, other than the end mark, stands on this line. -/
def Token.StandsOn (ts : List Token) (line : UInt32) : Prop :=
  ∃ t ∈ ts, t.kind ≠ .endOfInput ∧ t.line = line

/-- Every tree of a text is checked, and its statements stand on the lines of tokens. -/
theorem parse_formedOn {source : String} {code : List Statement} (h : parse source = .ok code) :
    ∃ ts, Token.scan source = .ok ts ∧
      AllFormedOn (Token.StandsOn ts) (ofBody .module code) := by
  unfold parse at h
  split at h
  case h_1 ts hts =>
    refine ⟨ts, hts, formed_parseTokens (fun t ht => ?_) h⟩
    exact ⟨Token.genuine_scan hts t ht, fun hkind => ⟨t, ht, hkind, rfl⟩⟩
  case h_2 => cases h

theorem parse_formed {source : String} {code : List Statement} (h : parse source = .ok code) :
    AllFormed (ofBody .module code) := by
  obtain ⟨ts, -, hformed⟩ := parse_formedOn h
  exact fun x hx => (hformed x hx).mono fun y hy => hy.toChecked

end Classlet
