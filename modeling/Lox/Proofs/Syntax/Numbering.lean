import Lox.Proofs.Syntax.Reading
import Lox.Syntax.Occurrence
import Mathlib.Data.List.Nodup
import Mathlib.Data.List.Perm.Basic

/-!
# Occurrences and names in what is read

Each occurrence in a tree gets an identity of its own, out of the numbers that the reading of the tree
uses up, and it comes with a token that was read. So the occurrences of a unit differ among each other
and from those of all other units (`numbered_of_reads`, `numbered_of_declarations`).

Names are tokens that were read as well, and only a statement is read as a branch or as the body of a
loop (`proper_of_declarations`).
-/

namespace Lox

/-! ## Numbered occurrences -/

/-- The kind of token that an occurrence is written with. -/
def Occurrence.Role.kind : Occurrence.Role → TokenKind
  | .read | .assigned => .identifier
  | .receiver => .keyword .thisKw

/-- The occurrences have different identities between two numbers, and each is written with one of the
tokens. -/
structure Numbered (n n' : Nat) (ts : List Token) (occurrences : List Occurrence) : Prop where
  le : n ≤ n'
  nodup : (occurrences.map (·.id)).Nodup
  within : ∀ o ∈ occurrences, n ≤ o.id ∧ o.id < n'
  written : ∀ o ∈ occurrences, o.token ∈ ts ∧ o.token.kind = o.role.kind

namespace Numbered

variable {n n₁ n₂ : Nat} {ts us : List Token} {os os' : List Occurrence}

theorem nil (n : Nat) (ts : List Token) : Numbered n n ts [] :=
  ⟨Nat.le_refl n, List.nodup_nil, by simp, by simp⟩

theorem single {role : Occurrence.Role} {token : Token} (h : token.kind = role.kind)
    (hmem : token ∈ ts) : Numbered n (n + 1) ts [⟨role, n, token⟩] :=
  ⟨Nat.le_succ n, List.nodup_singleton n, by simp, by simp [h, hmem]⟩

theorem mono (h : Numbered n n₁ ts os) (hts : ts ⊆ us) : Numbered n n₁ us os :=
  ⟨h.le, h.nodup, h.within, fun o ho => ⟨hts (h.written o ho).1, (h.written o ho).2⟩⟩

theorem perm (h : Numbered n n₁ ts os) (hperm : os.Perm os') : Numbered n n₁ ts os' :=
  ⟨h.le, (hperm.map _).nodup_iff.mp h.nodup, fun o ho => h.within o (hperm.mem_iff.mpr ho),
    fun o ho => h.written o (hperm.mem_iff.mpr ho)⟩

theorem widen (h : Numbered n₁ n₂ ts os) (hle : n ≤ n₁) : Numbered n n₂ ts os :=
  ⟨Nat.le_trans hle h.le, h.nodup,
    fun o ho => ⟨Nat.le_trans hle (h.within o ho).1, (h.within o ho).2⟩, h.written⟩

/-- What is read behind something is numbered behind it. -/
theorem append (h : Numbered n n₁ ts os) (h' : Numbered n₁ n₂ ts os') :
    Numbered n n₂ ts (os ++ os') where
  le := Nat.le_trans h.le h'.le
  nodup := by
    rw [List.map_append]
    refine h.nodup.append h'.nodup fun id hid hid' => ?_
    obtain ⟨o, ho, rfl⟩ := List.mem_map.mp hid
    obtain ⟨o', ho', same⟩ := List.mem_map.mp hid'
    have before : o.id < n₁ := (h.within o ho).2
    have behind : n₁ ≤ o.id := same ▸ (h'.within o' ho').1
    exact absurd before (Nat.not_lt.mpr behind)
  within := by
    intro o ho
    have hle := h.le
    have hle' := h'.le
    rcases List.mem_append.mp ho with ho | ho
    · obtain ⟨hlow, hhigh⟩ := h.within o ho
      exact ⟨hlow, Nat.lt_of_lt_of_le hhigh hle'⟩
    · obtain ⟨hlow, hhigh⟩ := h'.within o ho
      exact ⟨Nat.le_trans hle hlow, hhigh⟩
  written := by
    intro o ho
    rcases List.mem_append.mp ho with ho | ho
    · exact h.written o ho
    · exact h'.written o ho

theorem cons (token : Token) (h : Numbered n n₁ ts os) : Numbered n n₁ (token :: ts) os :=
  h.mono (List.subset_cons_self token ts)

theorem left (us : List Token) (h : Numbered n n₁ ts os) : Numbered n n₁ (ts ++ us) os :=
  h.mono (List.subset_append_left ts us)

theorem right (ts : List Token) (h : Numbered n n₁ us os) : Numbered n n₁ (ts ++ us) os :=
  h.mono (List.subset_append_right ts us)

theorem join (h : Numbered n n₁ ts os) (h' : Numbered n₁ n₂ us os') :
    Numbered n n₂ (ts ++ us) (os ++ os') :=
  (h.left us).append (h'.right ts)

end Numbered

/-! ## Expressions -/

/-- The trees of a tier hold the occurrences of both operands. -/
def Parser.Tier.Joins (tier : Parser.Tier) : Prop :=
  ∀ left operator right,
    (tier.node left operator right).occurrences = left.occurrences ++ right.occurrences

theorem tiers_join : ∀ tier ∈ Parser.tiers, tier.Joins := by
  simp only [Parser.tiers, List.forall_mem_cons]
  refine ⟨?_, ?_, ?_, ?_, ?_, ?_, fun _ h => absurd h List.not_mem_nil⟩ <;>
    exact fun _ _ _ => rfl

/-- The occurrences of the expression are numbered, if the operators join them. -/
def NumberedBy : ExprRule → Nat → List Token → Expr → Nat → Prop
  | .climb tiers, n, ts, e, n' =>
    (∀ tier ∈ tiers, tier.Joins) → Numbered n n' ts e.occurrences
  | _, n, ts, e, n' => Numbered n n' ts e.occurrences

mutual

/-- Reading an expression numbers its occurrences. -/
theorem numbered_of_reads {name : ExprRule} {n n' : Nat} {ts : List Token} {e : Expr} :
    ReadsExpr name n ts e n' → NumberedBy name n ts e n'
  | .literal _ => Numbered.nil n _
  | .this h => Numbered.single h (List.mem_singleton_self _)
  | .var h => Numbered.single h (List.mem_singleton_self _)
  | .grouping _ hinner _ => by
    have inner : Numbered .. := numbered_of_reads hinner
    exact (inner.cons _).left _
  | .primary h => by
    have operand := numbered_of_reads h
    exact operand
  | .call hcallee _ harguments _ => by
    have callee : Numbered .. := numbered_of_reads hcallee
    have arguments := numbered_of_arguments harguments
    exact (callee.join (arguments.cons _)).left _
  | .get hobject _ _ => by
    have object : Numbered .. := numbered_of_reads hobject
    exact object.left _
  | .applied h => by
    have operand := numbered_of_reads h
    exact operand
  | .unary _ h => by
    have operand : Numbered .. := numbered_of_reads h
    exact operand.cons _
  | .prefixed h => fun _ => by
    have operand := numbered_of_reads h
    exact operand
  | .operand h => fun joins => by
    have operand := numbered_of_reads h
    exact operand (List.forall_mem_cons.mp joins).2
  | .operator hleft _ hright => fun joins => by
    have left := numbered_of_reads hleft joins
    have right := numbered_of_reads hright (List.forall_mem_cons.mp joins).2
    rw [(List.forall_mem_cons.mp joins).1]
    exact left.join (right.cons _)
  | .loosest h => by
    have operand := numbered_of_reads h tiers_join
    exact operand
  | .assign htarget _ hvalue => by
    have target := numbered_of_reads htarget tiers_join
    have value : Numbered .. := numbered_of_reads hvalue
    obtain ⟨hmem, hkind⟩ := target.written _ (List.mem_singleton_self _)
    show Numbered ..
    -- the number of the target itself is given back, the assignment gets one behind its value
    refine Numbered.perm ?_ (List.perm_append_singleton _ _)
    refine Numbered.widen (Numbered.append ((value.cons _).right _) ?_) target.le
    exact Numbered.single hkind (List.mem_append_left _ hmem)
  | .set htarget _ hvalue => by
    have target := numbered_of_reads htarget tiers_join
    have value : Numbered .. := numbered_of_reads hvalue
    exact target.join (value.cons _)

theorem numbered_of_arguments {n n' : Nat} {ts : List Token} {es : List Expr} :
    ReadsArguments n ts es n' → Numbered n n' ts (Expr.occurrencesIn es)
  | .none => .nil n []
  | .some h _ => by
    have items := numbered_of_items h
    exact items

theorem numbered_of_items {n n' : Nat} {ts : List Token} {es : List Expr} :
    ReadsItems n ts es n' → Numbered n n' ts (Expr.occurrencesIn es)
  | .last h => by
    have item : Numbered .. := numbered_of_reads h
    simpa [Expr.occurrencesIn] using item
  | .more h _ hmore => by
    have item : Numbered .. := numbered_of_reads h
    have more := numbered_of_items hmore
    exact item.join (more.cons _)

end

/-! ## Statements and declarations -/

/-- The occurrences in an expression that may be missing. -/
def Expr.occurrencesOf (value : Option Expr) : List Occurrence := value.elim [] Expr.occurrences

theorem Stmt.occurrences_varDecl (name : Token) (value : Option Expr) :
    (Stmt.varDecl name value).occurrences = Expr.occurrencesOf value := by
  cases value <;> rfl

theorem Stmt.occurrences_returns (keyword : Token) (value : Option Expr) :
    (Stmt.returns keyword value).occurrences = Expr.occurrencesOf value := by
  cases value <;> rfl

/-- A `for` loop has its increment behind its body. -/
theorem Stmt.occurrences_forLoop (first : Option Stmt) (condition step : Option Expr)
    (body : Stmt) :
    (Stmt.forLoop first condition step body).occurrences =
      first.elim [] Stmt.occurrences ++ Expr.occurrencesOf condition ++
        (body.occurrences ++ Expr.occurrencesOf step) := by
  cases first <;> cases condition <;> cases step <;>
    simp [Stmt.forLoop, Stmt.occurrences, Stmt.occurrencesIn, Expr.occurrencesOf, Expr.occurrences]

theorem numbered_of_optional {n n' : Nat} {ts : List Token} {value : Option Expr} :
    ReadsOptional n ts value n' → Numbered n n' ts (Expr.occurrencesOf value)
  | .none => .nil n []
  | .some h => by
    have value : Numbered .. := numbered_of_reads h
    exact value

theorem numbered_of_variable {n n' : Nat} {ts : List Token} {t : Stmt} :
    ReadsVariable n ts t n' → Numbered n n' ts t.occurrences
  | .bare _ _ => .nil n _
  | .initialized _ _ h _ => by
    have value : Numbered .. := numbered_of_reads h
    exact ((value.cons _).cons _).left _

theorem numbered_of_initializer {n n' : Nat} {ts : List Token} {first : Option Stmt} :
    ReadsInitializer n ts first n' → Numbered n n' ts (first.elim [] Stmt.occurrences)
  | .none _ => .nil n _
  | .varDecl _ h => (numbered_of_variable h).cons _
  | .expression h _ => by
    have value : Numbered .. := numbered_of_reads h
    exact value.left _

mutual

theorem numbered_of_statement {isOpen : Bool} {n n' : Nat} {ts : List Token} {t : Stmt} :
    ReadsStatement isOpen n ts t n' → Numbered n n' ts t.occurrences
  | .expression h _ => by
    have value : Numbered .. := numbered_of_reads h
    exact value.left _
  | .print _ h _ => by
    have value : Numbered .. := numbered_of_reads h
    exact (value.cons _).left _
  | .returns _ h _ => by
    rw [Stmt.occurrences_returns]
    exact ((numbered_of_optional h).cons _).left _
  | .block _ h _ => by
    have body := numbered_of_declarations h
    exact (body.cons _).left _
  | .ifThen _ _ hcondition _ hbranch => by
    have condition : Numbered .. := numbered_of_reads hcondition
    have branch := numbered_of_statement hbranch
    exact ((condition.cons _).cons _).join (branch.cons _)
  | .ifElse _ _ hcondition _ hthen _ helse => by
    have condition : Numbered .. := numbered_of_reads hcondition
    have thenBranch := numbered_of_statement hthen
    have elseBranch := numbered_of_statement helse
    exact (((condition.cons _).cons _).join (thenBranch.cons _)).join (elseBranch.cons _)
  | .whileLoop _ _ hcondition _ hbody => by
    have condition : Numbered .. := numbered_of_reads hcondition
    have body := numbered_of_statement hbody
    exact ((condition.cons _).cons _).join (body.cons _)
  | .forLoop _ _ hfirst hcondition _ hstep _ hbody => by
    have first := numbered_of_initializer hfirst
    have condition := numbered_of_optional hcondition
    have step := numbered_of_optional hstep
    have body := numbered_of_statement hbody
    rw [Stmt.occurrences_forLoop]
    refine Numbered.perm ?_ (.append_left _ List.perm_append_comm)
    rw [← List.append_assoc]
    exact ((((first.cons _).cons _).join condition).join (step.cons _)).join (body.cons _)

theorem numbered_of_declaration {isOpen : Bool} {n n' : Nat} {ts : List Token} {t : Stmt} :
    ReadsDeclaration isOpen n ts t n' → Numbered n n' ts t.occurrences
  | .statement h => numbered_of_statement h
  | .varDecl _ h => (numbered_of_variable h).cons _
  | .funDecl _ h => by
    have routine := numbered_of_routine h
    exact routine.cons _
  | .classDecl _ _ _ h _ => by
    have methods := numbered_of_routines h
    exact (((methods.cons _).cons _).cons _).left _

/-- Reading declarations numbers their occurrences. -/
theorem numbered_of_declarations {n n' : Nat} {ts : List Token} {body : List Stmt} :
    ReadsDeclarations n ts body n' → Numbered n n' ts (Stmt.occurrencesIn body)
  | .nil => .nil n []
  | .cons h hmore => by
    have first := numbered_of_declaration h
    have more := numbered_of_declarations hmore
    exact first.join more

theorem numbered_of_routine {n n' : Nat} {ts : List Token} {f : FunctionDecl} :
    ReadsRoutine n ts f n' → Numbered n n' ts f.occurrences
  | .intro _ _ _ _ _ h _ => by
    have body := numbered_of_declarations h
    exact ((((body.cons _).cons _).right _).left _)

theorem numbered_of_routines {n n' : Nat} {ts : List Token} {fs : List FunctionDecl} :
    ReadsRoutines n ts fs n' → Numbered n n' ts (FunctionDecl.occurrencesIn fs)
  | .nil => .nil n []
  | .cons h hmore => by
    have first := numbered_of_routine h
    have more := numbered_of_routines hmore
    exact first.join more

end

end Lox
