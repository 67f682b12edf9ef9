import Lox.Proofs.Number.Literal
import Lox.Proofs.Syntax.Formed
import Lox.Proofs.Syntax.Lexed
import Lox.Proofs.Syntax.Relabeling
import Lox.Proofs.Syntax.Sexp

/-!
# Printed trees read back

The text of a tree without strings whose numbers are finite says which tree it is, but for the
identities of its occurrences and its lines. There is a reader for such texts: it takes the text as
a `Sexp`, the heads of lists say what kind of tree comes (`Sexp.expr?`, `Sexp.stmt?`), and single atoms
are what the lexical grammar says. What it reads is the tree that was printed (`Expr.readsBack`,
`Stmt.readsBack`).
-/

namespace Lox

/-! ## Atoms -/

/-- The kind of a text of the lexical grammar. -/
def kindOf (text : String) : TokenKind :=
  match text.toList with
  | [] => .eof
  | c :: cs =>
    match (segment c cs).content with
    | .kind kind => kind
    | _ => .eof

/-- The token with a text, on no line. -/
def Token.ofText (text : String) : Token := ⟨kindOf text, text, 0⟩

theorem kindOf_eq {kind : TokenKind} {text : String} (h : Lexical (.kind kind) text.toList) :
    kindOf text = kind := by
  rw [kindOf]
  cases htext : text.toList with
  | nil => exact absurd htext h.ne_nil
  | cons c cs =>
    rw [htext] at h
    have content := (segment_covers h []).same rfl
    rw [List.append_nil] at content
    dsimp only
    rw [content]

/-- A token that is what its text says can be had back from the text. -/
theorem Token.IsLexical.ofText {token : Token} (h : token.IsLexical) :
    Token.ofText token.lexeme = Relabeling.blank.token token := by
  rw [Token.ofText, kindOf_eq h]
  rfl

theorem Lexical.text_keyword {content : Content} {text : List Char} (h : Lexical content text)
    {word : Keyword} (hcontent : content = .kind (.keyword word)) : text = word.spelling.toList := by
  cases h with
  | keyword =>
    cases hcontent
    rfl
  | _ => cases hcontent

theorem Lexical.text_symbol {content : Content} {text : List Char} (h : Lexical content text)
    {mark : Symbol} (hcontent : content = .kind (.symbol mark)) : text = mark.spelling.toList := by
  cases h with
  | symbol =>
    cases hcontent
    rfl
  | _ => cases hcontent

/-- A reserved word is written in one way. -/
theorem Token.IsLexical.lexeme_keyword {token : Token} (h : token.IsLexical) {word : Keyword}
    (hkind : token.kind = .keyword word) : token.lexeme = word.spelling :=
  String.toList_inj.mp (Lexical.text_keyword h (congrArg Content.kind hkind))

/-- A mark or an operator is written in one way. -/
theorem Token.IsLexical.lexeme_symbol {token : Token} (h : token.IsLexical) {mark : Symbol}
    (hkind : token.kind = .symbol mark) : token.lexeme = mark.spelling :=
  String.toList_inj.mp (Lexical.text_symbol h (congrArg Content.kind hkind))

/-- Everything but strings and parentheses can stand as an atom. -/
def TokenKind.IsAtomic : TokenKind → Prop
  | .string _ | .symbol .leftParen | .symbol .rightParen => False
  | _ => True

theorem inAtom_of_isNamePart {c : Char} (h : Segment.isNamePart c) : InAtom c := by
  refine ⟨?_, ?_, ?_⟩ <;> rintro rfl <;> exact absurd h (by decide)

theorem inAtom_of_isDigit {c : Char} (h : c.isDigit) : InAtom c :=
  inAtom_of_isNamePart (isNamePart_of_isDigit h)

theorem isAtom_of_lexical {kind : TokenKind} {text : String} (h : Lexical (.kind kind) text.toList)
    (hkind : kind.IsAtomic) : IsAtom text := by
  refine ⟨h.ne_nil, ?_⟩
  generalize text.toList = cs at h
  generalize hcontent : Content.kind kind = content at h
  cases h with
  | symbol mark =>
    cases hcontent
    have atom : IsAtom mark.spelling := by cases mark <;> first | exact hkind.elim | decide
    exact atom.2
  | string =>
    cases hcontent
    exact hkind.elim
  | whole hdigits => exact fun c hc => inAtom_of_isDigit (hdigits.2 c hc)
  | fractional hwhole hfraction =>
    refine List.forall_mem_append.mpr ⟨fun c hc => inAtom_of_isDigit (hwhole.2 c hc), ?_⟩
    exact List.forall_mem_cons.mpr ⟨by decide, fun c hc => inAtom_of_isDigit (hfraction.2 c hc)⟩
  | keyword word =>
    obtain ⟨c, cs, hword, hc, hcs⟩ := spelling_keyword word
    rw [hword]
    exact List.forall_mem_cons.mpr ⟨inAtom_of_isNamePart (isNamePart_of_isNameStart hc),
      fun d hd => inAtom_of_isNamePart (hcs d hd)⟩
  | identifier hc hcs _ =>
    exact List.forall_mem_cons.mpr ⟨inAtom_of_isNamePart (isNamePart_of_isNameStart hc),
      fun d hd => inAtom_of_isNamePart (hcs d hd)⟩
  | _ => nomatch hcontent

/-- A name is an atom. -/
theorem Token.IsName.writes {token : Token} (h : token.IsName) (hlexical : token.IsLexical) :
    Writes token.lexeme (.atom token.lexeme) := by
  refine writes_atom (isAtom_of_lexical hlexical ?_)
  rw [h.identifier]
  trivial

/-- So is an operator. -/
theorem Token.isAtom_of_operator {token : Token}
    (h : token.IsUnary ∨ token.IsBinary ∨ token.IsLogical) (hlexical : token.IsLexical) :
    IsAtom token.lexeme := by
  refine isAtom_of_lexical hlexical ?_
  unfold Token.IsUnary Token.IsBinary Token.IsLogical at h
  generalize token.kind = kind at h
  unfold TokenKind.IsAtomic
  split <;> simp at h ⊢

/-! ## Plain trees -/

/-- The constant is no string, and if it is a number, it is finite. -/
def Literal.IsPlain : Literal → Prop
  | .number value => value.isFinite = true
  | .string _ => False
  | _ => True

mutual

/-- There is no string in the expression, and its numbers are finite. -/
def Expr.IsPlain : Expr → Prop
  | .literal value => value.IsPlain
  | .grouping inner => inner.IsPlain
  | .unary _ operand => operand.IsPlain
  | .binary left _ right | .logical left _ right => left.IsPlain ∧ right.IsPlain
  | .var .. | .this .. => True
  | .assign _ _ value => value.IsPlain
  | .call callee _ arguments => callee.IsPlain ∧ Expr.ArePlain arguments
  | .get object _ => object.IsPlain
  | .set object _ value => object.IsPlain ∧ value.IsPlain

def Expr.ArePlain : List Expr → Prop
  | [] => True
  | first :: more => first.IsPlain ∧ Expr.ArePlain more

end

mutual

/-- There is no string in the statement, and its numbers are finite. -/
def Stmt.IsPlain : Stmt → Prop
  | .expression value | .print value => value.IsPlain
  | .varDecl _ initializer => ∀ e ∈ initializer, e.IsPlain
  | .block body => Stmt.ArePlain body
  | .ifThen condition thenBranch => condition.IsPlain ∧ thenBranch.IsPlain
  | .ifElse condition thenBranch elseBranch =>
    condition.IsPlain ∧ thenBranch.IsPlain ∧ elseBranch.IsPlain
  | .whileLoop condition body => condition.IsPlain ∧ body.IsPlain
  | .funDecl declaration => declaration.IsPlain
  | .returns _ value => ∀ e ∈ value, e.IsPlain
  | .classDecl _ methods => FunctionDecl.ArePlain methods

def FunctionDecl.IsPlain : FunctionDecl → Prop
  | ⟨_, _, body⟩ => Stmt.ArePlain body

def Stmt.ArePlain : List Stmt → Prop
  | [] => True
  | first :: more => first.IsPlain ∧ Stmt.ArePlain more

def FunctionDecl.ArePlain : List FunctionDecl → Prop
  | [] => True
  | first :: more => first.IsPlain ∧ FunctionDecl.ArePlain more

end

/-! ## Reading expressions -/

/-- The expression that an atom is. -/
def leaf? (text : String) : Option Expr :=
  match kindOf text with
  | .keyword .thisKw => some (.this 0 (.ofText text))
  | .identifier => some (.var 0 (.ofText text))
  | kind => kind.literal?.map .literal

/-- The expression with an operator between two operands. -/
def Expr.operation (left : Expr) (operator : Token) (right : Expr) : Expr :=
  match operator.kind with
  | .keyword _ => .logical left operator right
  | _ => .binary left operator right

section

variable {left right : Expr} {operator : Token}

theorem Expr.operation_binary (h : operator.IsBinary) :
    left.operation operator right = .binary left operator right := by
  rw [Expr.operation]
  split
  · next hkind =>
    rw [Token.IsBinary, hkind] at h
    simp at h
  · rfl

theorem Expr.operation_logical (h : operator.IsLogical) :
    left.operation operator right = .logical left operator right := by
  rw [Expr.operation]
  split
  · rfl
  · next hkind =>
    rw [Token.IsLogical, List.mem_pair] at h
    exact absurd (h.elim (hkind _) (hkind _)) id

end

mutual

/-- The expression that is written like this. -/
def Sexp.expr? : Sexp → Option Expr
  | .atom text => leaf? text
  | .list [.atom "group", inner] => return .grouping (← inner.expr?)
  | .list [.atom "=", .atom name, value] => return .assign 0 (.ofText name) (← value.expr?)
  | .list [.atom ".", object, .atom name] => return .get (← object.expr?) (.ofText name)
  | .list [.atom ".=", object, .atom name, value] =>
    return .set (← object.expr?) (.ofText name) (← value.expr?)
  | .list (.atom "call" :: callee :: arguments) =>
    return .call (← callee.expr?) (.ofText ")") (← Sexp.exprs? arguments)
  | .list [.atom operator, operand] => return .unary (.ofText operator) (← operand.expr?)
  | .list [.atom operator, left, right] =>
    return .operation (← left.expr?) (.ofText operator) (← right.expr?)
  | _ => none

/-- The expressions that are written like these. -/
def Sexp.exprs? : List Sexp → Option (List Expr)
  | [] => some []
  | first :: more => return (← first.expr?) :: (← Sexp.exprs? more)

end

/-- Prefix operators are not the heads of other lists. -/
theorem expr?_unary {operator : Token} (h : operator.IsUnary) (hlexical : operator.IsLexical)
    (p : Sexp) : Sexp.expr? (.list [.atom operator.lexeme, p]) =
      return .unary (.ofText operator.lexeme) (← p.expr?) := by
  have kind : operator.kind = kindOf operator.lexeme := (kindOf_eq hlexical).symm
  rw [Token.IsUnary, kind] at h
  refine Sexp.expr?.eq_7 _ _ ?_ ?_
  all_goals
    intro head
    rw [head] at h
    exact absurd h (by decide +kernel)

/-- Operators between operands are not the heads of other lists. -/
theorem expr?_operation {operator : Token} (h : operator.IsBinary ∨ operator.IsLogical)
    (hlexical : operator.IsLexical) (p q : Sexp) :
    Sexp.expr? (.list [.atom operator.lexeme, p, q]) =
      return .operation (← p.expr?) (.ofText operator.lexeme) (← q.expr?) := by
  have kind : operator.kind = kindOf operator.lexeme := (kindOf_eq hlexical).symm
  rw [Token.IsBinary, Token.IsLogical, kind] at h
  refine Sexp.expr?.eq_8 _ _ _ (fun _ head _ => ?_) (fun _ head _ => ?_) fun head => ?_
  all_goals
    rw [head] at h
    exact absurd h (by decide +kernel)

/-! ## Expressions that are read back -/

/-- The text says which expression it is, but for identities and lines. -/
def Expr.ReadsBack (e : Expr) : Prop :=
  ∃ p, Writes e.text p ∧ p.expr? = some (e.relabel .blank)

/-- The texts say which expressions they are. -/
def Expr.ReadsBackAll (es : List Expr) : Prop :=
  ∃ ps, WritesAll (Expr.texts es) ps ∧ Sexp.exprs? ps = some (Expr.relabelAll .blank es)

/-- A constant is read as what its text is on its own. -/
theorem Literal.text_lexical {value : Literal} (hlexed : value.Lexed) (hplain : value.IsPlain) :
    ∃ kind : TokenKind, Lexical (.kind kind) value.text.toList ∧ kind.IsAtomic ∧
      kind.literal? = some value := by
  cases value with
  | number x =>
    obtain ⟨text, hlexical⟩ := hlexed
    obtain ⟨d, rfl⟩ := Number.exists_decimal hlexical
    exact ⟨_, Number.lexical_treeText hplain, trivial, rfl⟩
  | string _ => exact hplain.elim
  | boolean value =>
    cases value with
    | false => exact ⟨_, .keyword .falseKw, trivial, rfl⟩
    | true => exact ⟨_, .keyword .trueKw, trivial, rfl⟩
  | nil => exact ⟨_, .keyword .nilKw, trivial, rfl⟩

/-- Texts of expressions with a head in front write a list. -/
theorem writes_headed {head : String} (h : IsAtom head) {texts : List String} {ps : List Sexp}
    (hparts : WritesAll texts ps) : Writes (parenthesized (head :: texts)) (.list (.atom head :: ps)) :=
  writes_list (.cons (writes_atom h) hparts)

theorem Expr.readsBack_literal {value : Literal} (hlexed : value.Lexed) (hplain : value.IsPlain) :
    (Expr.literal value).ReadsBack := by
  obtain ⟨kind, hlexical, hatomic, hvalue⟩ := Literal.text_lexical hlexed hplain
  refine ⟨_, writes_atom (isAtom_of_lexical hlexical hatomic), ?_⟩
  show leaf? value.text = _
  rw [leaf?, kindOf_eq hlexical]
  split
  · nomatch hvalue
  · nomatch hvalue
  · rw [hvalue]
    rfl

theorem Expr.readsBack_operation {left right : Expr} {operator : Token}
    (h : operator.IsBinary ∨ operator.IsLogical) (hlexical : operator.IsLexical)
    (hleft : left.ReadsBack) (hright : right.ReadsBack) :
    ∃ p, Writes (parenthesized [operator.lexeme, left.text, right.text]) p ∧
      p.expr? = some (.operation (left.relabel .blank) (Relabeling.blank.token operator)
        (right.relabel .blank)) := by
  obtain ⟨p, hp, hleft⟩ := hleft
  obtain ⟨q, hq, hright⟩ := hright
  have atom : IsAtom operator.lexeme := Token.isAtom_of_operator (.inr h) hlexical
  refine ⟨_, writes_headed atom (.cons hp (.cons hq .nil)), ?_⟩
  rw [expr?_operation h hlexical, hleft, hright, hlexical.ofText]
  rfl

mutual

/-- The text of an expression from a source, if it is plain, says which expression it is. -/
theorem Expr.readsBack : (e : Expr) → e.Formed → e.Lexed → e.IsPlain → e.ReadsBack
  | .literal _, _, hlexed, hplain => Expr.readsBack_literal hlexed hplain
  | .grouping inner, hformed, hlexed, hplain => by
    obtain ⟨p, hp, hinner⟩ := inner.readsBack hformed hlexed hplain
    refine ⟨_, writes_headed (by decide) (.cons hp .nil), ?_⟩
    rw [Sexp.expr?, hinner]
    rfl
  | .unary operator operand, hformed, hlexed, hplain => by
    obtain ⟨p, hp, hoperand⟩ := operand.readsBack hformed.2 hlexed.2 hplain
    have atom : IsAtom operator.lexeme := Token.isAtom_of_operator (.inl hformed.1) hlexed.1
    refine ⟨_, writes_headed atom (.cons hp .nil), ?_⟩
    rw [expr?_unary hformed.1 hlexed.1, hoperand, hlexed.1.ofText]
    rfl
  | .binary left operator right, hformed, hlexed, hplain => by
    have hleft := left.readsBack hformed.2.1 hlexed.2.1 hplain.1
    have hright := right.readsBack hformed.2.2 hlexed.2.2 hplain.2
    have operation := Expr.readsBack_operation (.inl hformed.1) hlexed.1 hleft hright
    have binary : (Relabeling.blank.token operator).IsBinary := hformed.1
    rwa [Expr.operation_binary binary] at operation
  | .logical left operator right, hformed, hlexed, hplain => by
    have hleft := left.readsBack hformed.2.1 hlexed.2.1 hplain.1
    have hright := right.readsBack hformed.2.2 hlexed.2.2 hplain.2
    have operation := Expr.readsBack_operation (.inr hformed.1) hlexed.1 hleft hright
    have logical : (Relabeling.blank.token operator).IsLogical := hformed.1
    rwa [Expr.operation_logical logical] at operation
  | .var _ name, hformed, hlexed, _ => by
    refine ⟨_, hformed.writes hlexed, ?_⟩
    show leaf? name.lexeme = some (.var 0 (Relabeling.blank.token name))
    rw [leaf?, kindOf_eq hlexed, hformed.identifier, ← hlexed.ofText]
  | .assign _ name value, hformed, hlexed, hplain => by
    obtain ⟨p, hp, hvalue⟩ := value.readsBack hformed.2 hlexed.2 hplain
    refine ⟨_, writes_headed (by decide) (.cons (hformed.1.writes hlexed.1) (.cons hp .nil)), ?_⟩
    rw [Sexp.expr?, hvalue, hlexed.1.ofText]
    rfl
  | .call callee paren arguments, hformed, hlexed, hplain => by
    obtain ⟨p, hp, hcallee⟩ := callee.readsBack hformed.1 hlexed.1 hplain.1
    obtain ⟨ps, hps, harguments⟩ := Expr.readsBackAll arguments hformed.2.2 hlexed.2.2 hplain.2
    -- the text does not show the parenthesis, but all of them have one lexeme
    have closing : Token.ofText ")" = Relabeling.blank.token paren := by
      rw [← hlexed.2.1.2.ofText, hlexed.2.1.2.lexeme_symbol hlexed.2.1.1]
      rfl
    refine ⟨_, writes_headed (by decide) (.cons hp hps), ?_⟩
    rw [Sexp.expr?, hcallee, harguments, closing]
    rfl
  | .get object name, hformed, hlexed, hplain => by
    obtain ⟨p, hp, hobject⟩ := object.readsBack hformed.2 hlexed.2 hplain
    refine ⟨_, writes_headed (by decide) (.cons hp (.cons (hformed.1.writes hlexed.1) .nil)), ?_⟩
    rw [Sexp.expr?, hobject, hlexed.1.ofText]
    rfl
  | .set object name value, hformed, hlexed, hplain => by
    obtain ⟨p, hp, hobject⟩ := object.readsBack hformed.2.1 hlexed.2.1 hplain.1
    obtain ⟨q, hq, hvalue⟩ := value.readsBack hformed.2.2 hlexed.2.2 hplain.2
    refine ⟨_, writes_headed (by decide)
      (.cons hp (.cons (hformed.1.writes hlexed.1) (.cons hq .nil))), ?_⟩
    rw [Sexp.expr?, hobject, hvalue, hlexed.1.ofText]
    rfl
  | .this _ keyword, hformed, hlexed, _ => by
    have word : Token.ofText "this" = Relabeling.blank.token keyword := by
      rw [← hlexed.ofText, hlexed.lexeme_keyword hformed]
      rfl
    have atom : Writes "this" (.atom "this") := writes_atom (by decide)
    refine ⟨_, atom, ?_⟩
    show some (Expr.this 0 (Token.ofText "this")) = some (.this 0 (Relabeling.blank.token keyword))
    rw [word]

theorem Expr.readsBackAll : (es : List Expr) → Expr.FormedAll es → Expr.LexedAll es →
    Expr.ArePlain es → Expr.ReadsBackAll es
  | [], _, _, _ => ⟨[], .nil, rfl⟩
  | first :: more, hformed, hlexed, hplain => by
    obtain ⟨p, hp, hfirst⟩ := first.readsBack hformed.1 hlexed.1 hplain.1
    obtain ⟨ps, hps, hmore⟩ := Expr.readsBackAll more hformed.2 hlexed.2 hplain.2
    refine ⟨_, .cons hp hps, ?_⟩
    rw [Sexp.exprs?, hfirst, hmore]
    rfl

end

/-! ## Reading statements -/

/-- The names that are written like these. -/
def Sexp.names? : List Sexp → Option (List Token)
  | [] => some []
  | .atom name :: more => return .ofText name :: (← Sexp.names? more)
  | _ => none

mutual

/-- The statement that is written like this. -/
def Sexp.stmt? : Sexp → Option Stmt
  | .list [.atom ";", value] => return .expression (← value.expr?)
  | .list [.atom "print", value] => return .print (← value.expr?)
  | .list [.atom "var", .atom name] => some (.varDecl (.ofText name) none)
  | .list [.atom "var", .atom name, value] =>
    return .varDecl (.ofText name) (some (← value.expr?))
  | .list (.atom "block" :: body) => return .block (← Sexp.stmts? body)
  | .list [.atom "if", condition, thenBranch] =>
    return .ifThen (← condition.expr?) (← thenBranch.stmt?)
  | .list [.atom "if", condition, thenBranch, elseBranch] =>
    return .ifElse (← condition.expr?) (← thenBranch.stmt?) (← elseBranch.stmt?)
  | .list [.atom "while", condition, body] => return .whileLoop (← condition.expr?) (← body.stmt?)
  | .list (.atom "fun" :: .atom name :: .list params :: body) =>
    return .funDecl ⟨.ofText name, ← Sexp.names? params, ← Sexp.stmts? body⟩
  | .list [.atom "return"] => some (.returns (.ofText "return") none)
  | .list [.atom "return", value] => return .returns (.ofText "return") (some (← value.expr?))
  | .list (.atom "class" :: .atom name :: methods) =>
    return .classDecl (.ofText name) (← Sexp.routines? methods)
  | _ => none

/-- The statements that are written like these. -/
def Sexp.stmts? : List Sexp → Option (List Stmt)
  | [] => some []
  | first :: more => return (← first.stmt?) :: (← Sexp.stmts? more)

/-- The functions that are written like these. -/
def Sexp.routines? : List Sexp → Option (List FunctionDecl)
  | [] => some []
  | first :: more =>
    match first.stmt? with
    | some (.funDecl routine) => return routine :: (← Sexp.routines? more)
    | _ => none

end

/-! ## Statements that are read back -/

/-- The text says which statement it is, but for identities and lines. -/
def Stmt.ReadsBack (t : Stmt) : Prop :=
  ∃ p, Writes t.text p ∧ p.stmt? = some (t.relabel .blank)

/-- The texts say which statements they are. -/
def Stmt.ReadsBackAll (body : List Stmt) : Prop :=
  ∃ ps, WritesAll (Stmt.texts body) ps ∧ Sexp.stmts? ps = some (Stmt.relabelAll .blank body)

/-- The texts say which functions they are. -/
def FunctionDecl.ReadsBackAll (fs : List FunctionDecl) : Prop :=
  ∃ ps, WritesAll (FunctionDecl.texts fs) ps ∧
    Sexp.routines? ps = some (FunctionDecl.relabelAll .blank fs)

theorem names_readBack {names : List Token} (hnames : ∀ name ∈ names, name.IsName)
    (hlexed : Lexed names) : ∃ ps, WritesAll (names.map (·.lexeme)) ps ∧
      Sexp.names? ps = some (names.map Relabeling.blank.token) := by
  induction names with
  | nil => exact ⟨[], .nil, rfl⟩
  | cons name names ih =>
    obtain ⟨hname, hnames⟩ := List.forall_mem_cons.mp hnames
    obtain ⟨hfirst, hmore⟩ := lexed_cons.mp hlexed
    obtain ⟨ps, hps, hread⟩ := ih hnames hmore
    refine ⟨_, .cons (hname.writes hfirst) hps, ?_⟩
    rw [Sexp.names?, hread, hfirst.ofText]
    rfl

theorem Stmt.readsBack_varDecl {name : Token} {initializer : Option Expr} (hname : name.IsName)
    (hlexical : name.IsLexical) (hvalue : ∀ e ∈ initializer, e.ReadsBack) :
    (Stmt.varDecl name initializer).ReadsBack := by
  have named := hname.writes hlexical
  cases initializer with
  | none =>
    refine ⟨_, writes_headed (by decide) (.cons named .nil), ?_⟩
    rw [Sexp.stmt?, hlexical.ofText]
    rfl
  | some value =>
    obtain ⟨p, hp, hvalue⟩ := hvalue value rfl
    refine ⟨_, writes_headed (by decide) (.cons named (.cons hp .nil)), ?_⟩
    rw [Sexp.stmt?, hvalue, hlexical.ofText]
    rfl

theorem Stmt.readsBack_returns {keyword : Token} {value : Option Expr}
    (hkeyword : keyword.kind = .keyword .returnKw) (hlexical : keyword.IsLexical)
    (hvalue : ∀ e ∈ value, e.ReadsBack) : (Stmt.returns keyword value).ReadsBack := by
  have word : Token.ofText "return" = Relabeling.blank.token keyword := by
    rw [← hlexical.ofText, hlexical.lexeme_keyword hkeyword]
    rfl
  cases value with
  | none =>
    refine ⟨_, writes_headed (by decide) .nil, ?_⟩
    rw [Sexp.stmt?, word]
    rfl
  | some value =>
    obtain ⟨p, hp, hvalue⟩ := hvalue value rfl
    refine ⟨_, writes_headed (by decide) (.cons hp .nil), ?_⟩
    rw [Sexp.stmt?, hvalue, word]
    rfl

mutual

/-- The text of a statement from a source, if it is plain, says which statement it is. -/
theorem Stmt.readsBack : (t : Stmt) → t.Formed → t.Lexed → t.IsPlain → t.ReadsBack
  | .expression value, hformed, hlexed, hplain => by
    obtain ⟨p, hp, hvalue⟩ := value.readsBack hformed hlexed hplain
    refine ⟨_, writes_headed (by decide) (.cons hp .nil), ?_⟩
    rw [Sexp.stmt?, hvalue]
    rfl
  | .print value, hformed, hlexed, hplain => by
    obtain ⟨p, hp, hvalue⟩ := value.readsBack hformed hlexed hplain
    refine ⟨_, writes_headed (by decide) (.cons hp .nil), ?_⟩
    rw [Sexp.stmt?, hvalue]
    rfl
  | .varDecl _ _, hformed, hlexed, hplain =>
    Stmt.readsBack_varDecl hformed.1 hlexed.1 fun e he =>
      e.readsBack (hformed.2 e he) (hlexed.2 e he) (hplain e he)
  | .block body, hformed, hlexed, hplain => by
    obtain ⟨ps, hps, hbody⟩ := Stmt.readsBackAll body hformed hlexed hplain
    refine ⟨_, writes_headed (by decide) hps, ?_⟩
    rw [Sexp.stmt?, hbody]
    rfl
  | .ifThen condition thenBranch, hformed, hlexed, hplain => by
    obtain ⟨p, hp, hcondition⟩ := condition.readsBack hformed.1 hlexed.1 hplain.1
    obtain ⟨q, hq, hthen⟩ := thenBranch.readsBack hformed.2 hlexed.2 hplain.2
    refine ⟨_, writes_headed (by decide) (.cons hp (.cons hq .nil)), ?_⟩
    rw [Sexp.stmt?, hcondition, hthen]
    rfl
  | .ifElse condition thenBranch elseBranch, hformed, hlexed, hplain => by
    obtain ⟨p, hp, hcondition⟩ := condition.readsBack hformed.1 hlexed.1 hplain.1
    obtain ⟨q, hq, hthen⟩ := thenBranch.readsBack hformed.2.1 hlexed.2.1 hplain.2.1
    obtain ⟨r, hr, helse⟩ := elseBranch.readsBack hformed.2.2 hlexed.2.2 hplain.2.2
    refine ⟨_, writes_headed (by decide) (.cons hp (.cons hq (.cons hr .nil))), ?_⟩
    rw [Sexp.stmt?, hcondition, hthen, helse]
    rfl
  | .whileLoop condition body, hformed, hlexed, hplain => by
    obtain ⟨p, hp, hcondition⟩ := condition.readsBack hformed.1 hlexed.1 hplain.1
    obtain ⟨q, hq, hbody⟩ := body.readsBack hformed.2 hlexed.2 hplain.2
    refine ⟨_, writes_headed (by decide) (.cons hp (.cons hq .nil)), ?_⟩
    rw [Sexp.stmt?, hcondition, hbody]
    rfl
  | .funDecl declaration, hformed, hlexed, hplain => by
    have routine := declaration.readsBack hformed hlexed hplain
    exact routine
  | .returns _ _, hformed, hlexed, hplain =>
    Stmt.readsBack_returns hlexed.1.1 hlexed.1.2 fun e he =>
      e.readsBack (hformed e he) (hlexed.2 e he) (hplain e he)
  | .classDecl name methods, hformed, hlexed, hplain => by
    obtain ⟨ps, hps, hmethods⟩ := FunctionDecl.readsBackAll methods hformed.2 hlexed.2 hplain
    refine ⟨_, writes_headed (by decide) (.cons (hformed.1.writes hlexed.1) hps), ?_⟩
    rw [Sexp.stmt?, hmethods, hlexed.1.ofText]
    rfl

/-- The text of a function says which function it is. -/
theorem FunctionDecl.readsBack : (f : FunctionDecl) → f.Formed → f.Lexed → f.IsPlain →
    (Stmt.funDecl f).ReadsBack
  | ⟨name, params, body⟩, hformed, hlexed, hplain => by
    obtain ⟨ps, hps, hparams⟩ := names_readBack hformed.2.2.1 hlexed.2.1
    obtain ⟨qs, hqs, hbody⟩ := Stmt.readsBackAll body hformed.2.2.2 hlexed.2.2 hplain
    have named := hformed.1.writes hlexed.1
    refine ⟨_, writes_headed (by decide) (.cons named (.cons (writes_list hps) hqs)), ?_⟩
    rw [Sexp.stmt?, hparams, hbody, hlexed.1.ofText]
    rfl

theorem Stmt.readsBackAll : (body : List Stmt) → Stmt.FormedAll body → Stmt.LexedAll body →
    Stmt.ArePlain body → Stmt.ReadsBackAll body
  | [], _, _, _ => ⟨[], .nil, rfl⟩
  | first :: more, hformed, hlexed, hplain => by
    obtain ⟨p, hp, hfirst⟩ := first.readsBack hformed.1 hlexed.1 hplain.1
    obtain ⟨ps, hps, hmore⟩ := Stmt.readsBackAll more hformed.2 hlexed.2 hplain.2
    refine ⟨_, .cons hp hps, ?_⟩
    rw [Sexp.stmts?, hfirst, hmore]
    rfl

theorem FunctionDecl.readsBackAll : (fs : List FunctionDecl) → FunctionDecl.FormedAll fs →
    FunctionDecl.LexedAll fs → FunctionDecl.ArePlain fs → FunctionDecl.ReadsBackAll fs
  | [], _, _, _ => ⟨[], .nil, rfl⟩
  | first :: more, hformed, hlexed, hplain => by
    obtain ⟨p, hp, hfirst⟩ := first.readsBack hformed.1 hlexed.1 hplain.1
    obtain ⟨ps, hps, hmore⟩ := FunctionDecl.readsBackAll more hformed.2 hlexed.2 hplain.2
    refine ⟨_, .cons hp hps, ?_⟩
    rw [Sexp.routines?, hfirst, Stmt.relabel, hmore]
    rfl

end

end Lox
