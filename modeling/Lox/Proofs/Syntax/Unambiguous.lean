import Lox.Proofs.Syntax.Unprinting

/-!
# Printed trees are not ambiguous

Statements and expressions of sources, whole units or parts of them, are the same but for identities and
lines if they are printed alike, there is no string in them, and their numbers are finite
(`same_of_text_eq`). For each of them is what is read back from its text.
-/

namespace Lox

/-! ## Parts of trees -/

/-- The expressions right inside of an expression. -/
def Expr.operands : Expr → List Expr
  | .literal _ | .var .. | .this .. => []
  | .grouping inner => [inner]
  | .unary _ operand => [operand]
  | .binary left _ right | .logical left _ right => [left, right]
  | .assign _ _ value => [value]
  | .call callee _ arguments => callee :: arguments
  | .get object _ => [object]
  | .set object _ value => [object, value]

/-- The expressions right inside of a statement. -/
def Stmt.operands : Stmt → List Expr
  | .expression value | .print value => [value]
  | .varDecl _ value | .returns _ value => value.toList
  | .ifThen condition _ | .ifElse condition _ _ | .whileLoop condition _ => [condition]
  | .block _ | .funDecl _ | .classDecl .. => []

/-- The statements right inside of a statement; those of a function or a class are in the bodies. -/
def Stmt.inner : Stmt → List Stmt
  | .expression _ | .print _ | .varDecl .. | .returns .. => []
  | .block body => body
  | .ifThen _ thenBranch => [thenBranch]
  | .ifElse _ thenBranch elseBranch => [thenBranch, elseBranch]
  | .whileLoop _ body => [body]
  | .funDecl declaration => declaration.body
  | .classDecl _ methods => methods.flatMap FunctionDecl.body

/-- The statement is one of a program that is accepted, or part of such a one. -/
inductive Stmt.OccursIn (source : String) : Stmt → Prop
  | program {n n' : OccurrenceId} {program : List Stmt} {t : Stmt} :
      parseProgram n (tokensOf source) = ⟨.ok program, n'⟩ → t ∈ program → t.OccursIn source
  | inner {t part : Stmt} : t.OccursIn source → part ∈ t.inner → part.OccursIn source

/-- The expression is accepted as one, or part of such a one, or it is in a statement of a program. -/
inductive Expr.OccursIn (source : String) : Expr → Prop
  | expression {n n' : OccurrenceId} {e : Expr} :
      parseExpression n (tokensOf source) = ⟨.ok e, n'⟩ → e.OccursIn source
  | statement {t : Stmt} {e : Expr} : t.OccursIn source → e ∈ t.operands → e.OccursIn source
  | operand {e part : Expr} : e.OccursIn source → part ∈ e.operands → part.OccursIn source

/-! ## Parts are as good as the whole -/

/-- Parts of well-formed expressions are well formed, and so for their tokens. -/
theorem Expr.formed_operands {e : Expr} (hformed : e.Formed) (hlexed : e.Lexed) :
    ∀ part ∈ e.operands, part.Formed ∧ part.Lexed := by
  cases e with
  | literal | var | this => exact nofun
  | grouping => exact List.forall_mem_singleton.mpr ⟨hformed, hlexed⟩
  | unary | assign | get => exact List.forall_mem_singleton.mpr ⟨hformed.2, hlexed.2⟩
  | binary | logical | set =>
    refine List.forall_mem_cons.mpr ⟨⟨hformed.2.1, hlexed.2.1⟩, ?_⟩
    exact List.forall_mem_singleton.mpr ⟨hformed.2.2, hlexed.2.2⟩
  | call =>
    refine List.forall_mem_cons.mpr ⟨⟨hformed.1, hlexed.1⟩, fun part hpart => ?_⟩
    exact ⟨hformed.2.2.mem part hpart, hlexed.2.2.mem part hpart⟩

theorem Stmt.formed_operands {t : Stmt} (hformed : t.Formed) (hlexed : t.Lexed) :
    ∀ part ∈ t.operands, part.Formed ∧ part.Lexed := by
  cases t with
  | block | funDecl | classDecl => exact nofun
  | expression | print => exact List.forall_mem_singleton.mpr ⟨hformed, hlexed⟩
  | ifThen | ifElse | whileLoop => exact List.forall_mem_singleton.mpr ⟨hformed.1, hlexed.1⟩
  | varDecl =>
    intro part hpart
    have hpart := Option.mem_toList.mp hpart
    exact ⟨hformed.2 part hpart, hlexed.2 part hpart⟩
  | returns =>
    intro part hpart
    have hpart := Option.mem_toList.mp hpart
    exact ⟨hformed part hpart, hlexed.2 part hpart⟩

theorem FunctionDecl.formed_body {f : FunctionDecl} (hformed : f.Formed) (hlexed : f.Lexed) :
    ∀ part ∈ f.body, part.Formed ∧ part.Lexed := by
  obtain ⟨name, params, body⟩ := f
  intro part hpart
  exact ⟨hformed.2.2.2.mem part hpart, hlexed.2.2.mem part hpart⟩

theorem Stmt.formed_inner {t : Stmt} (hformed : t.Formed) (hlexed : t.Lexed) :
    ∀ part ∈ t.inner, part.Formed ∧ part.Lexed := by
  cases t with
  | expression | print | varDecl | returns => exact nofun
  | block => exact fun part hpart => ⟨hformed.mem part hpart, hlexed.mem part hpart⟩
  | ifThen | whileLoop => exact List.forall_mem_singleton.mpr ⟨hformed.2, hlexed.2⟩
  | ifElse =>
    refine List.forall_mem_cons.mpr ⟨⟨hformed.2.1, hlexed.2.1⟩, ?_⟩
    exact List.forall_mem_singleton.mpr ⟨hformed.2.2, hlexed.2.2⟩
  | funDecl => exact FunctionDecl.formed_body hformed hlexed
  | classDecl =>
    intro part hpart
    obtain ⟨f, hf, hpart⟩ := List.mem_flatMap.mp hpart
    exact FunctionDecl.formed_body (hformed.2.mem f hf) (hlexed.2.mem f hf) part hpart

section

variable {source : String}

theorem Stmt.OccursIn.formed {t : Stmt} (h : t.OccursIn source) : t.Formed ∧ t.Lexed := by
  induction h with
  | program hparsed hmem =>
    exact ⟨(formed_of_parseProgram hparsed).mem _ hmem, (lexed_of_parseProgram hparsed).mem _ hmem⟩
  | inner _ hpart ih => exact Stmt.formed_inner ih.1 ih.2 _ hpart

theorem Expr.OccursIn.formed {e : Expr} (h : e.OccursIn source) : e.Formed ∧ e.Lexed := by
  induction h with
  | expression hparsed =>
    exact ⟨formed_of_parseExpression hparsed, lexed_of_parseExpression hparsed⟩
  | statement ht hpart => exact Stmt.formed_operands ht.formed.1 ht.formed.2 _ hpart
  | operand _ hpart ih => exact Expr.formed_operands ih.1 ih.2 _ hpart

theorem Stmt.OccursIn.readsBack {t : Stmt} (h : t.OccursIn source) (hplain : t.IsPlain) :
    t.ReadsBack :=
  t.readsBack h.formed.1 h.formed.2 hplain

theorem Expr.OccursIn.readsBack {e : Expr} (h : e.OccursIn source) (hplain : e.IsPlain) :
    e.ReadsBack :=
  e.readsBack h.formed.1 h.formed.2 hplain

end

/-! ## One text, one tree -/

/-- What is written alike is read back alike. -/
theorem same_of_writes {α : Type} {read : Sexp → Option α} {text text' : String} {a b : α}
    (h : ∃ p, Writes text p ∧ read p = some a) (h' : ∃ p, Writes text' p ∧ read p = some b)
    (htext : text = text') : a = b := by
  obtain ⟨p, hp, hread⟩ := h
  obtain ⟨p', hp', hread'⟩ := h'
  rw [htext] at hp
  rw [hp.unique hp'] at hread
  exact Option.some_inj.mp (hread.symm.trans hread')

/-- Take two statements or two expressions of sources that the parser accepts, whole units or parts of
them, without strings and with finite numbers only. If they are printed alike, they are the same tree,
except that the identities of occurrences and the lines of tokens may differ. -/
theorem same_of_text_eq :
    (∀ (source source' : String) (t t' : Stmt), t.OccursIn source → t'.OccursIn source' →
      t.IsPlain → t'.IsPlain → t.text = t'.text → t.relabel .blank = t'.relabel .blank) ∧
    ∀ (source source' : String) (e e' : Expr), e.OccursIn source → e'.OccursIn source' →
      e.IsPlain → e'.IsPlain → e.text = e'.text → e.relabel .blank = e'.relabel .blank :=
  ⟨fun _ _ _ _ h h' hplain hplain' => same_of_writes (h.readsBack hplain) (h'.readsBack hplain'),
    fun _ _ _ _ h h' hplain hplain' => same_of_writes (h.readsBack hplain) (h'.readsBack hplain')⟩

/-- A number may be spelled in two ways, and a statement may be part of another one. -/
theorem same_of_text_eq_call :
    let called (id line : Nat) (argument : Float) : Expr :=
      .unary ⟨.symbol .minus, "-", 1⟩
        (.call (.var id ⟨.identifier, "a", 1⟩) ⟨.symbol .rightParen, ")", line⟩
          [.literal (.number argument)])
    let first := called 0 1 (Number.Decimal.toFloat ⟨5, -1⟩)
    let second := called 7 2 (Number.Decimal.toFloat ⟨50, -2⟩)
    (Stmt.print first).OccursIn "print -a(0.5);" ∧
      (Stmt.print second).OccursIn "\x7bprint - a\n(00.50);\x7d" ∧
      (Stmt.print first).text = "(print (- (call a 0.5)))" ∧
      (Stmt.print first).relabel .blank = (Stmt.print second).relabel .blank ∧
      first.relabel .blank = second.relabel .blank := by
  intro called first second
  have parsed : parseProgram 0 (tokensOf "print -a(0.5);") = ⟨.ok [.print first], 1⟩ := by
    unfold tokensOf
    rw [itemsOf_eq_itemsWithin]
    rfl
  have parsed' : parseProgram 7 (tokensOf "\x7bprint - a\n(00.50);\x7d") =
      ⟨.ok [.block [.print second]], 8⟩ := by
    unfold tokensOf
    rw [itemsOf_eq_itemsWithin]
    rfl
  have whole : (Stmt.print first).OccursIn _ := .program parsed (List.mem_singleton.mpr rfl)
  have block : (Stmt.block [.print second]).OccursIn _ :=
    .program parsed' (List.mem_singleton.mpr rfl)
  have part : (Stmt.print second).OccursIn _ := .inner block (List.mem_singleton.mpr rfl)
  have half : (Number.Decimal.toFloat ⟨5, -1⟩).isFinite = true := by decide +kernel
  have half' : (Number.Decimal.toFloat ⟨50, -2⟩).isFinite = true := by decide +kernel
  have plain : first.IsPlain := ⟨trivial, half, trivial⟩
  have plain' : second.IsPlain := ⟨trivial, half', trivial⟩
  have alike : first.text = second.text := by decide +kernel
  have printed : (Stmt.print first).text = (Stmt.print second).text :=
    congrArg (fun text => parenthesized ["print", text]) alike
  refine ⟨whole, part, by decide +kernel, ?_, ?_⟩
  · exact same_of_text_eq.1 _ _ _ _ whole part plain plain' printed
  · exact same_of_text_eq.2 _ _ _ _ (.statement whole (List.mem_singleton.mpr rfl))
      (.statement part (List.mem_singleton.mpr rfl)) plain plain' alike

end Lox
