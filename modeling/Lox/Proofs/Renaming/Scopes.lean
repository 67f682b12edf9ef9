import Lox.Proofs.Renaming.Respelling
import Lox.Proofs.Resolution.Distinct
import Lox.Proofs.Syntax.Absence
import Lox.Proofs.Twin.Relabeling
import Mathlib.Data.List.Pairwise
import Mathlib.Logic.Equiv.Basic

/-!
# Names scope by scope

To follow a variable with a new name through a program, it is easier to say of each scope how its names
are called, and of each occurrence that it is called as in the scope that it is bound to. `Stmt.Respelt`
says so, with nothing that singles out one scope. A program in which one variable has got another name
is an instance: the scope of the variable swaps the two names, and all others keep theirs
(`Stmt.RenamesIn.respelt`).
-/

namespace Lox

open Renaming

namespace Respelling

variable (s : Respelling)

/-- A scope calls names as before, but perhaps the old name the new one. Nothing is said of the new
name, which is not in use. -/
def Fits (ρ : Renaming) : Prop :=
  ∀ name, name ≠ s.new → ρ.names name = name ∨ name = s.old ∧ ρ.names name = s.new

/-- All scopes do. -/
def FitsAll (scopes : List Renaming) : Prop := ∀ ρ ∈ scopes, s.Fits ρ

theorem fits_same : s.Fits same := fun _ _ => .inl rfl

/-- The scope of the variable swaps the two names. -/
def swapped (hold : s.old ≠ receiverName) (hnew : s.new ≠ receiverName) : Renaming :=
  ⟨Equiv.swap s.old s.new, Equiv.swap_apply_of_ne_of_ne hold.symm hnew.symm⟩

/-- How a name is called inside of scopes, if it is bound at a distance. -/
def calledAt (scopes : List Renaming) (distance : Option Nat) (name : String) : String :=
  distance.elim name fun d => (scopes[d]?.getD same).names name

/-- How an occurrence is called inside of scopes. -/
def spelled (scopes : List Renaming) (id : OccurrenceId) (token : Token) : Token :=
  token.called (calledAt scopes (s.distance? id) token.lexeme)

section

variable {s} {scopes : List Renaming}

/-- A name that is not the new one stays or becomes it. -/
theorem FitsAll.calledAt (h : s.FitsAll scopes) (distance : Option Nat) {name : String}
    (hname : name ≠ s.new) :
    calledAt scopes distance name = name ∨
      name = s.old ∧ calledAt scopes distance name = s.new := by
  cases distance with
  | none => exact .inl rfl
  | some d =>
    rw [Respelling.calledAt, Option.elim_some]
    cases hd : scopes[d]? with
    | none => exact .inl rfl
    | some ρ => exact h ρ (List.mem_of_getElem? hd) name hname

theorem FitsAll.innermost (h : s.FitsAll scopes) : s.Fits (innermost scopes) := by
  cases scopes with
  | nil => exact s.fits_same
  | cons ρ outer => exact h ρ List.mem_cons_self

theorem FitsAll.cons {ρ : Renaming} (h : s.FitsAll scopes) (hρ : s.Fits ρ) :
    s.FitsAll (ρ :: scopes) :=
  List.forall_mem_cons.mpr ⟨hρ, h⟩

end

/-- The receiver is never called otherwise. -/
theorem calledAt_receiver (scopes : List Renaming) (distance : Option Nat) :
    calledAt scopes distance receiverName = receiverName := by
  cases distance with
  | none => rfl
  | some d => exact ((scopes[d]?).getD same).receiver

theorem calledAt_succ (ρ : Renaming) (scopes : List Renaming) (distance : Option Nat)
    (name : String) :
    calledAt (ρ :: scopes) (distance.map (· + 1)) name = calledAt scopes distance name := by
  cases distance <;> rfl

end Respelling

/-! ## The relation -/

mutual

/-- The statement with its names as the scopes around it say. The scopes inside of it may call names in
ways of their own, but names of functions and classes stay. -/
inductive Stmt.Respelt (s : Respelling) : List Renaming → Stmt → Stmt → Prop
  | expression {scopes : List Renaming} {value value' : Expr} :
      value.respell (s.spelled scopes) = value' →
      Stmt.Respelt s scopes (.expression value) (.expression value')
  | print {scopes : List Renaming} {value value' : Expr} :
      value.respell (s.spelled scopes) = value' →
      Stmt.Respelt s scopes (.print value) (.print value')
  | varDecl {scopes : List Renaming} {name name' : Token} {value value' : Option Expr} :
      name.called ((innermost scopes).names name.lexeme) = name' →
      value.map (Expr.respell (s.spelled scopes)) = value' →
      Stmt.Respelt s scopes (.varDecl name value) (.varDecl name' value')
  | block {scopes : List Renaming} {body body' : List Stmt} (ρ : Renaming) : s.Fits ρ →
      Stmt.RespeltAll s (ρ :: scopes) body body' →
      Stmt.Respelt s scopes (.block body) (.block body')
  | ifThen {scopes : List Renaming} {condition condition' : Expr} {branch branch' : Stmt} :
      condition.respell (s.spelled scopes) = condition' → branch.Respelt s scopes branch' →
      Stmt.Respelt s scopes (.ifThen condition branch) (.ifThen condition' branch')
  | ifElse {scopes : List Renaming} {condition condition' : Expr}
      {first first' second second' : Stmt} :
      condition.respell (s.spelled scopes) = condition' → first.Respelt s scopes first' →
      second.Respelt s scopes second' →
      Stmt.Respelt s scopes (.ifElse condition first second) (.ifElse condition' first' second')
  | whileLoop {scopes : List Renaming} {condition condition' : Expr} {body body' : Stmt} :
      condition.respell (s.spelled scopes) = condition' → body.Respelt s scopes body' →
      Stmt.Respelt s scopes (.whileLoop condition body) (.whileLoop condition' body')
  | funDecl {scopes : List Renaming} {f f' : FunctionDecl} :
      (innermost scopes).names f.name.lexeme = f.name.lexeme → f.Respelt s scopes f' →
      Stmt.Respelt s scopes (.funDecl f) (.funDecl f')
  | returns {scopes : List Renaming} {keyword : Token} {value value' : Option Expr} :
      value.map (Expr.respell (s.spelled scopes)) = value' →
      Stmt.Respelt s scopes (.returns keyword value) (.returns keyword value')
  | classDecl {scopes : List Renaming} {name : Token} {methods methods' : List FunctionDecl} :
      (innermost scopes).names name.lexeme = name.lexeme →
      FunctionDecl.RespeltAll s (same :: scopes) methods methods' →
      Stmt.Respelt s scopes (.classDecl name methods) (.classDecl name methods')

/-- The function with its names as the scopes around it say. -/
inductive FunctionDecl.Respelt (s : Respelling) :
    List Renaming → FunctionDecl → FunctionDecl → Prop
  | intro {scopes : List Renaming} {name : Token} {params params' : List Token}
      {body body' : List Stmt} (ρ : Renaming) : s.Fits ρ →
      params.map (fun param => param.called (ρ.names param.lexeme)) = params' →
      Stmt.RespeltAll s (ρ :: scopes) body body' →
      FunctionDecl.Respelt s scopes ⟨name, params, body⟩ ⟨name, params', body'⟩

/-- The statements with their names as the scopes around them say. -/
inductive Stmt.RespeltAll (s : Respelling) : List Renaming → List Stmt → List Stmt → Prop
  | nil {scopes : List Renaming} : Stmt.RespeltAll s scopes [] []
  | cons {scopes : List Renaming} {first first' : Stmt} {more more' : List Stmt} :
      first.Respelt s scopes first' → Stmt.RespeltAll s scopes more more' →
      Stmt.RespeltAll s scopes (first :: more) (first' :: more')

/-- The functions with their names as the scopes around them say. -/
inductive FunctionDecl.RespeltAll (s : Respelling) :
    List Renaming → List FunctionDecl → List FunctionDecl → Prop
  | nil {scopes : List Renaming} : FunctionDecl.RespeltAll s scopes [] []
  | cons {scopes : List Renaming} {first first' : FunctionDecl} {more more' : List FunctionDecl} :
      first.Respelt s scopes first' → FunctionDecl.RespeltAll s scopes more more' →
      FunctionDecl.RespeltAll s scopes (first :: more) (first' :: more')

end

theorem FunctionDecl.Respelt.name_eq {s : Respelling} {scopes : List Renaming}
    {f f' : FunctionDecl} (h : f.Respelt s scopes f') : f'.name = f.name := by
  cases h
  rfl

/-! ## Expressions -/

section

variable {f g : OccurrenceId → Token → Token}

mutual

/-- Only the names of the occurrences in an expression matter. -/
theorem Expr.respell_congr : (e : Expr) →
    (∀ o ∈ e.occurrences, f o.id o.token = g o.id o.token) → e.respell f = e.respell g
  | .literal _, _ => rfl
  | .grouping inner, h => by rw [Expr.respell, Expr.respell_congr inner h, Expr.respell]
  | .unary _ operand, h => by rw [Expr.respell, Expr.respell_congr operand h, Expr.respell]
  | .binary left _ right, h | .logical left _ right, h => by
    obtain ⟨hleft, hright⟩ := List.forall_mem_append.mp h
    rw [Expr.respell, Expr.respell_congr left hleft, Expr.respell_congr right hright, Expr.respell]
  | .var _ _, h => by
    have name := h _ (List.mem_singleton_self _)
    rw [Expr.respell, name, Expr.respell]
  | .assign _ _ value, h => by
    obtain ⟨name, hvalue⟩ := List.forall_mem_cons.mp h
    rw [Expr.respell, name, Expr.respell_congr value hvalue, Expr.respell]
  | .call callee _ arguments, h => by
    obtain ⟨hcallee, harguments⟩ := List.forall_mem_append.mp h
    rw [Expr.respell, Expr.respell_congr callee hcallee, Expr.respellAll_congr arguments harguments,
      Expr.respell]
  | .get object _, h => by rw [Expr.respell, Expr.respell_congr object h, Expr.respell]
  | .set object _ value, h => by
    obtain ⟨hobject, hvalue⟩ := List.forall_mem_append.mp h
    rw [Expr.respell, Expr.respell_congr object hobject, Expr.respell_congr value hvalue,
      Expr.respell]
  | .this _ _, _ => rfl

theorem Expr.respellAll_congr : (es : List Expr) →
    (∀ o ∈ Expr.occurrencesIn es, f o.id o.token = g o.id o.token) →
      Expr.respellAll f es = Expr.respellAll g es
  | [], _ => rfl
  | first :: more, h => by
    obtain ⟨hfirst, hmore⟩ := List.forall_mem_append.mp h
    rw [Expr.respellAll, Expr.respell_congr first hfirst, Expr.respellAll_congr more hmore,
      Expr.respellAll]

end

mutual

@[simp] theorem Expr.respell_self : (e : Expr) → e.respell (fun _ token => token) = e
  | .literal _ | .var _ _ | .this _ _ => rfl
  | .grouping inner => by rw [Expr.respell, Expr.respell_self inner]
  | .unary _ operand => by rw [Expr.respell, Expr.respell_self operand]
  | .binary left _ right | .logical left _ right => by
    rw [Expr.respell, Expr.respell_self left, Expr.respell_self right]
  | .assign _ _ value => by rw [Expr.respell, Expr.respell_self value]
  | .call callee _ arguments => by
    rw [Expr.respell, Expr.respell_self callee, Expr.respellAll_self arguments]
  | .get object _ => by rw [Expr.respell, Expr.respell_self object]
  | .set object _ value => by
    rw [Expr.respell, Expr.respell_self object, Expr.respell_self value]

@[simp] theorem Expr.respellAll_self : (es : List Expr) →
    Expr.respellAll (fun _ token => token) es = es
  | [] => rfl
  | first :: more => by
    rw [Expr.respellAll, Expr.respell_self first, Expr.respellAll_self more]

end

end

/-! ## Where all scopes keep their names -/

section

variable {s : Respelling}

theorem Respelling.spelled_sames (n : Nat) : s.spelled (sames n) = fun _ token => token := by
  funext id token
  have keeps : ∀ d : Nat, (sames n)[d]?.getD same = same := by
    intro d
    unfold sames
    rw [List.getElem?_replicate]
    split <;> rfl
  unfold Respelling.spelled Respelling.calledAt
  cases s.distance? id with
  | none => rfl
  | some d =>
    rw [Option.elim_some, keeps]
    rfl

theorem Expr.respell_sames (n : Nat) (e : Expr) : e.respell (s.spelled (sames n)) = e := by
  rw [Respelling.spelled_sames, Expr.respell_self]

theorem Expr.respell_sames_ifAny (n : Nat) (value : Option Expr) :
    value.map (Expr.respell (s.spelled (sames n))) = value := by
  cases value with
  | none => rfl
  | some value => rw [Option.map_some, Expr.respell_sames]

theorem Renaming.names_innermost_sames (n : Nat) (name : String) :
    (innermost (sames n)).names name = name := by
  rw [innermost_sames, names_same]

mutual

/-- Every statement is its own where all scopes keep their names. -/
theorem Stmt.Respelt.sames (n : Nat) : (t : Stmt) → t.Respelt s (sames n) t
  | .expression value => .expression (value.respell_sames n)
  | .print value => .print (value.respell_sames n)
  | .varDecl name value => by
    refine .varDecl ?_ (Expr.respell_sames_ifAny n value)
    rw [names_innermost_sames]
    rfl
  | .block body => .block same s.fits_same (Stmt.RespeltAll.sames (n + 1) body)
  | .ifThen condition branch =>
    .ifThen (condition.respell_sames n) (Stmt.Respelt.sames n branch)
  | .ifElse condition first second =>
    .ifElse (condition.respell_sames n) (Stmt.Respelt.sames n first) (Stmt.Respelt.sames n second)
  | .whileLoop condition body =>
    .whileLoop (condition.respell_sames n) (Stmt.Respelt.sames n body)
  | .funDecl f => .funDecl (names_innermost_sames n _) (FunctionDecl.Respelt.sames n f)
  | .returns _ value => .returns (Expr.respell_sames_ifAny n value)
  | .classDecl _ methods =>
    .classDecl (names_innermost_sames n _) (FunctionDecl.RespeltAll.sames (n + 1) methods)

theorem FunctionDecl.Respelt.sames (n : Nat) : (f : FunctionDecl) → f.Respelt s (sames n) f
  | ⟨_, params, body⟩ =>
    .intro same s.fits_same (List.map_id params) (Stmt.RespeltAll.sames (n + 1) body)

theorem Stmt.RespeltAll.sames (n : Nat) : (body : List Stmt) →
    Stmt.RespeltAll s (sames n) body body
  | [] => .nil
  | first :: more => .cons (Stmt.Respelt.sames n first) (Stmt.RespeltAll.sames n more)

theorem FunctionDecl.RespeltAll.sames (n : Nat) : (fs : List FunctionDecl) →
    FunctionDecl.RespeltAll s (sames n) fs fs
  | [] => .nil
  | first :: more =>
    .cons (FunctionDecl.Respelt.sames n first) (FunctionDecl.RespeltAll.sames n more)

end

/-! ## Where one scope swaps the two names -/

namespace Respelling

variable (hold : s.old ≠ receiverName) (hnew : s.new ≠ receiverName)

theorem fits_swapped : s.Fits (s.swapped hold hnew) := by
  intro name hname
  by_cases h : name = s.old
  · subst h
    exact .inr ⟨rfl, Equiv.swap_apply_left _ _⟩
  · exact .inl (Equiv.swap_apply_of_ne_of_ne h hname)

theorem called_swapped {token : Token} (h : token.lexeme ≠ s.new) :
    token.called ((s.swapped hold hnew).names token.lexeme) = s.declared token := by
  unfold declared
  split
  · next hlexeme =>
    rw [hlexeme]
    exact congrArg token.called (Equiv.swap_apply_left _ _)
  · next hlexeme => exact congrArg token.called (Equiv.swap_apply_of_ne_of_ne hlexeme h)

/-- The scopes as many levels inside of the scope of the variable. -/
def around (depth n : Nat) : List Renaming := sames depth ++ s.swapped hold hnew :: sames n

/-- An occurrence is called otherwise if it is bound to the scope of the variable. -/
theorem spelled_around (depth n : Nat) (id : OccurrenceId) {token : Token}
    (h : token.lexeme ≠ s.new) :
    s.spelled (s.around hold hnew depth n) id token = s.occurrence depth id token := by
  unfold spelled calledAt occurrence
  cases s.distance? id with
  | none => rfl
  | some d =>
    have inner : (sames depth).length = depth := List.length_replicate
    simp only [Option.some_inj, Option.elim_some]
    rcases Nat.lt_trichotomy d depth with hlt | rfl | hgt
    · have scope : (s.around hold hnew depth n)[d]? = some same := by
        rw [around, List.getElem?_append_left (inner.symm ▸ hlt)]
        exact List.getElem?_replicate_of_lt hlt
      rw [scope, if_neg (Nat.ne_of_lt hlt)]
      rfl
    · have scope : (s.around hold hnew d n)[d]? = some (s.swapped hold hnew) := by
        rw [around, List.getElem?_append_right (Nat.le_of_eq inner), inner, Nat.sub_self]
        rfl
      rw [scope, if_pos rfl]
      exact called_swapped hold hnew h
    · have scope : (s.around hold hnew depth n)[d]?.getD same = same := by
        obtain ⟨k, rfl⟩ := Nat.exists_eq_add_of_lt hgt
        rw [around, List.getElem?_append_right (by omega), inner,
          show depth + k + 1 - depth = k + 1 from by omega, List.getElem?_cons_succ, sames,
          List.getElem?_replicate]
        split <;> rfl
      rw [scope, if_neg (Nat.ne_of_gt hgt)]
      rfl

/-- A name that a function or a class has, or any name further inside, is not the name of the
variable. -/
theorem names_around {depth n : Nat} {name : String} (h : name ≠ s.new)
    (hother : depth = 0 → name ≠ s.old) :
    (innermost (s.around hold hnew depth n)).names name = name := by
  cases depth with
  | zero => exact Equiv.swap_apply_of_ne_of_ne (hother rfl) h
  | succ depth => rfl

theorem called_around {depth n : Nat} {name : Token} (h : name.lexeme ≠ s.new) :
    name.called ((innermost (s.around hold hnew depth n)).names name.lexeme) =
      if depth = 0 then s.declared name else name := by
  cases depth with
  | zero => exact called_swapped hold hnew h
  | succ depth => rfl

end Respelling

section

variable (hold : s.old ≠ receiverName) (hnew : s.new ≠ receiverName)

theorem Expr.respell_around (depth n : Nat) {e : Expr} (h : e.Avoids s.new) :
    e.respell (s.spelled (s.around hold hnew depth n)) = e.respell (s.occurrence depth) :=
  e.respell_congr fun o ho => s.spelled_around hold hnew depth n o.id (h o ho)

theorem Expr.respell_around_ifAny (depth n : Nat) {value : Option Expr}
    (h : Expr.AvoidsIfAny s.new value) :
    value.map (Expr.respell (s.spelled (s.around hold hnew depth n))) =
      value.map (Expr.respell (s.occurrence depth)) := by
  cases value with
  | none => rfl
  | some value => exact congrArg some (Expr.respell_around hold hnew depth n h)

/-- Where only variables are called by the old name. -/
def Stmt.LeavesOld (s : Respelling) (t : Stmt) : Prop :=
  ∀ name ∈ t.declared?, name.lexeme = s.old → ∃ value, t = .varDecl name value

theorem Stmt.leavesOld_of_none {t : Stmt} (h : t.declared? = none) : t.LeavesOld s := by
  rw [Stmt.LeavesOld, h]
  exact nofun

mutual

/-- Inside of the scope of the variable, a statement is called as the scopes around it say. -/
theorem Stmt.Respelt.around (depth n : Nat) : (t : Stmt) → t.Avoids s.new → t.WellNamed →
    (depth = 0 → t.LeavesOld s) →
      t.Respelt s (s.around hold hnew depth n) (t.respell s depth)
  | .expression _, h, _, _ => .expression (Expr.respell_around hold hnew depth n h)
  | .print _, h, _, _ => .print (Expr.respell_around hold hnew depth n h)
  | .varDecl _ _, h, _, _ =>
    .varDecl (s.called_around hold hnew h.1) (Expr.respell_around_ifAny hold hnew depth n h.2)
  | .block body, h, hnamed, _ =>
    .block same s.fits_same (Stmt.RespeltAll.around (depth + 1) n body h hnamed nofun)
  | .ifThen _ branch, h, hnamed, _ =>
    .ifThen (Expr.respell_around hold hnew depth n h.1)
      (Stmt.Respelt.around depth n branch h.2 hnamed.2 fun _ => Stmt.leavesOld_of_none hnamed.1)
  | .ifElse _ first second, h, hnamed, _ =>
    .ifElse (Expr.respell_around hold hnew depth n h.1)
      (Stmt.Respelt.around depth n first h.2.1 hnamed.1.2 fun _ => Stmt.leavesOld_of_none hnamed.1.1)
      (Stmt.Respelt.around depth n second h.2.2 hnamed.2.2 fun _ => Stmt.leavesOld_of_none hnamed.2.1)
  | .whileLoop _ body, h, hnamed, _ =>
    .whileLoop (Expr.respell_around hold hnew depth n h.1)
      (Stmt.Respelt.around depth n body h.2 hnamed.2 fun _ => Stmt.leavesOld_of_none hnamed.1)
  | .funDecl ⟨name, params, body⟩, h, hnamed, hleaves => by
    refine .funDecl (s.names_around hold hnew h.1 fun hdepth hname => ?_)
      (FunctionDecl.Respelt.around depth n ⟨name, params, body⟩ h.2 hnamed.2)
    obtain ⟨value, hvalue⟩ := hleaves hdepth name rfl hname
    nomatch hvalue
  | .returns _ _, h, _, _ => .returns (Expr.respell_around_ifAny hold hnew depth n h)
  | .classDecl name methods, h, hnamed, hleaves => by
    refine .classDecl (s.names_around hold hnew h.1 fun hdepth hname => ?_)
      (FunctionDecl.RespeltAll.around (depth + 1) n methods h.2 hnamed.2)
    obtain ⟨value, hvalue⟩ := hleaves hdepth name rfl hname
    nomatch hvalue

theorem FunctionDecl.Respelt.around (depth n : Nat) : (f : FunctionDecl) → f.Avoids s.new →
    f.WellNamed → f.Respelt s (s.around hold hnew depth n) (f.respell s depth)
  | ⟨_, params, body⟩, h, hnamed =>
    .intro same s.fits_same (List.map_id params)
      (Stmt.RespeltAll.around (depth + 1) n body h.2 hnamed.2 nofun)

theorem Stmt.RespeltAll.around (depth n : Nat) : (body : List Stmt) →
    Stmt.AvoidsAll s.new body → Stmt.WellNamedAll body →
    (depth = 0 → ∀ t ∈ body, t.LeavesOld s) →
      Stmt.RespeltAll s (s.around hold hnew depth n) body (Stmt.respellAll s depth body)
  | [], _, _, _ => .nil
  | first :: more, h, hnamed, hleaves =>
    .cons
      (Stmt.Respelt.around depth n first h.1 hnamed.1 fun hdepth =>
        hleaves hdepth first List.mem_cons_self)
      (Stmt.RespeltAll.around depth n more h.2 hnamed.2 fun hdepth t ht =>
        hleaves hdepth t (List.mem_cons_of_mem _ ht))

theorem FunctionDecl.RespeltAll.around (depth n : Nat) : (fs : List FunctionDecl) →
    FunctionDecl.AvoidsAll s.new fs → FunctionDecl.WellNamedAll fs →
      FunctionDecl.RespeltAll s (s.around hold hnew depth n) fs (FunctionDecl.respellAll s depth fs)
  | [], _, _ => .nil
  | first :: more, h, hnamed =>
    .cons (FunctionDecl.Respelt.around depth n first h.1 hnamed.1)
      (FunctionDecl.RespeltAll.around depth n more h.2 hnamed.2)

end

end

/-! ## A program with a new name for one variable -/

/-- Beside a variable with the old name there is no function and no class with it. -/
theorem Respelling.DeclaredBy.leavesOld {body : List Stmt} (h : s.DeclaredBy body)
    (hapart : body.Pairwise Stmt.Apart) : ∀ t ∈ body, t.LeavesOld s := by
  obtain ⟨name, value, hmem, hname⟩ := h
  intro t ht name' hname' hold
  by_cases heq : .varDecl name value = t
  · subst heq
    obtain rfl := Option.some.inj hname'
    exact ⟨value, rfl⟩
  · have apart := hapart.forall hmem ht heq
    exact absurd (hname.trans hold.symm) (apart name rfl name' hname')

theorem Respelling.DeclaredBy.free {body : List Stmt} (h : s.DeclaredBy body)
    (hnamed : Stmt.WellNamedAll body) : s.old ≠ receiverName := by
  obtain ⟨name, value, hmem, hname⟩ := h
  have free : name.IsFree := hnamed.of_mem hmem
  exact hname ▸ free

theorem Respelling.DeclaredBy.respelt (hnew : s.new ≠ receiverName) (n : Nat) {body : List Stmt} (h : s.DeclaredBy body)
    (havoids : Stmt.AvoidsAll s.new body) (hnamed : Stmt.WellNamedAll body)
    (hapart : body.Pairwise Stmt.Apart) :
    (Stmt.block body).Respelt s (sames n) (.block (Stmt.respellAll s 0 body)) :=
  .block _ (s.fits_swapped (h.free hnamed) hnew)
    (Stmt.RespeltAll.around (h.free hnamed) hnew 0 n body havoids hnamed fun _ =>
      h.leavesOld hapart)

/-- A function whose parameters or whose body declare the variable. -/
theorem FunctionDecl.respelt_own (hnew : s.new ≠ receiverName) (n : Nat) {name : Token} {params : List Token}
    {body : List Stmt} (h : (∃ param ∈ params, param.lexeme = s.old) ∨ s.DeclaredBy body)
    (havoids : FunctionDecl.Avoids s.new ⟨name, params, body⟩)
    (hnamed : FunctionDecl.WellNamed ⟨name, params, body⟩)
    (hdistinct : FunctionDecl.Distinct ⟨name, params, body⟩) :
    FunctionDecl.Respelt s (sames n) ⟨name, params, body⟩
      ⟨name, params.map s.declared, Stmt.respellAll s 0 body⟩ := by
  obtain ⟨hparams, hapart, -⟩ := hdistinct
  have free : s.old ≠ receiverName := by
    rcases h with ⟨param, hparam, hname⟩ | h
    · exact hname ▸ hnamed.1 param hparam
    · exact h.free hnamed.2
  have leaves : ∀ t ∈ body, t.LeavesOld s := by
    rcases h with ⟨param, hparam, hname⟩ | h
    · intro t ht name' hname' hold
      exact absurd (hold.trans hname.symm) (hparams param hparam t ht name' hname')
    · exact h.leavesOld hapart
  refine .intro _ (s.fits_swapped free hnew) (List.map_congr_left fun param hparam => ?_)
    (Stmt.RespeltAll.around free hnew 0 n body havoids.2 hnamed.2 fun _ => leaves)
  exact s.called_swapped free hnew (havoids.1 param hparam)

mutual

theorem Stmt.Renames.respelt (hnew : s.new ≠ receiverName) (n : Nat) {t t' : Stmt} : t.Renames s t' → t.Avoids s.new →
    t.WellNamed → t.Distinct → t.Respelt s (sames n) t'
  | .block h, havoids, hnamed, hdistinct => h.respelt hnew n havoids hnamed hdistinct.1
  | .inBlock h, havoids, hnamed, hdistinct =>
    .block same s.fits_same (Stmt.RenamesIn.respelt hnew (n + 1) h havoids hnamed hdistinct.2)
  | .ifThen h, havoids, hnamed, hdistinct =>
    .ifThen (Expr.respell_sames n _) (Stmt.Renames.respelt hnew n h havoids.2 hnamed.2 hdistinct)
  | .thenBranch h, havoids, hnamed, hdistinct =>
    .ifElse (Expr.respell_sames n _)
      (Stmt.Renames.respelt hnew n h havoids.2.1 hnamed.1.2 hdistinct.1) (Stmt.Respelt.sames n _)
  | .elseBranch h, havoids, hnamed, hdistinct =>
    .ifElse (Expr.respell_sames n _) (Stmt.Respelt.sames n _)
      (Stmt.Renames.respelt hnew n h havoids.2.2 hnamed.2.2 hdistinct.2)
  | .whileLoop h, havoids, hnamed, hdistinct =>
    .whileLoop (Expr.respell_sames n _) (Stmt.Renames.respelt hnew n h havoids.2 hnamed.2 hdistinct)
  | .funDecl h, havoids, hnamed, hdistinct =>
    .funDecl (names_innermost_sames n _)
      (FunctionDecl.Renames.respelt hnew n h havoids.2 hnamed.2 hdistinct)
  | .classDecl h, havoids, hnamed, hdistinct =>
    .classDecl (names_innermost_sames n _)
      (FunctionDecl.RenamesIn.respelt hnew (n + 1) h havoids.2 hnamed.2 hdistinct)

theorem FunctionDecl.Renames.respelt (hnew : s.new ≠ receiverName) (n : Nat) {f f' : FunctionDecl} : f.Renames s f' →
    f.Avoids s.new → f.WellNamed → f.Distinct → f.Respelt s (sames n) f'
  | .own h, havoids, hnamed, hdistinct => FunctionDecl.respelt_own hnew n h havoids hnamed hdistinct
  | .inside h, havoids, hnamed, hdistinct =>
    .intro same s.fits_same (List.map_id _)
      (Stmt.RenamesIn.respelt hnew (n + 1) h havoids.2 hnamed.2 hdistinct.2.2)

/-- With a new name for one variable, each occurrence is called as in the scope that it is bound
to. -/
theorem Stmt.RenamesIn.respelt (hnew : s.new ≠ receiverName) (n : Nat) {body body' : List Stmt} : Stmt.RenamesIn s body body' →
    Stmt.AvoidsAll s.new body → Stmt.WellNamedAll body → Stmt.DistinctAll body →
    Stmt.RespeltAll s (sames n) body body'
  | .first h, havoids, hnamed, hdistinct =>
    .cons (Stmt.Renames.respelt hnew n h havoids.1 hnamed.1 hdistinct.1) (Stmt.RespeltAll.sames n _)
  | .later h, havoids, hnamed, hdistinct =>
    .cons (Stmt.Respelt.sames n _) (Stmt.RenamesIn.respelt hnew n h havoids.2 hnamed.2 hdistinct.2)

theorem FunctionDecl.RenamesIn.respelt (hnew : s.new ≠ receiverName) (n : Nat) {fs fs' : List FunctionDecl} :
    FunctionDecl.RenamesIn s fs fs' → FunctionDecl.AvoidsAll s.new fs →
    FunctionDecl.WellNamedAll fs → FunctionDecl.DistinctAll fs →
    FunctionDecl.RespeltAll s (sames n) fs fs'
  | .first h, havoids, hnamed, hdistinct =>
    .cons (FunctionDecl.Renames.respelt hnew n h havoids.1 hnamed.1 hdistinct.1)
      (FunctionDecl.RespeltAll.sames n _)
  | .later h, havoids, hnamed, hdistinct =>
    .cons (FunctionDecl.Respelt.sames n _)
      (FunctionDecl.RenamesIn.respelt hnew n h havoids.2 hnamed.2 hdistinct.2)

end

end

end Lox
