import Lox.Proofs.Syntax.Relabeling
import Lox.Proofs.Twin.Code

/-!
# A tree and the same tree with other identities and lines

The same tree, relabeled in two ways, is bound to the same scopes on both sides, and so it is a twin of
itself in scopes whose names stay (`Stmt.Bound.twins`). Only the lines have to belong together.
-/

namespace Lox

open Resolution

/-- As many scopes whose names stay. -/
def Renaming.sames (n : Nat) : List Renaming := List.replicate n .same

theorem Renaming.innermost_sames (n : Nat) : innermost (sames n) = same := by
  cases n <;> rfl

open Renaming

section

variable {tie : Tie} {r r' : Relabeling}

/-- The lines of the two relabelings belong together. -/
def Tie.Relines (tie : Tie) (r r' : Relabeling) : Prop := ∀ n, tie.line (r.line n) (r'.line n)

/-- An occurrence that is bound to the same scopes has the same distance on both sides. -/
theorem Tie.Occurs.of_bound (hline : tie.Relines r r') {scopes : List Scope}
    {role : Occurrence.Role} {id : OccurrenceId} {token : Token}
    (h : Occurrence.Bound tie.left scopes ⟨role, r.id id, r.token token⟩)
    (h' : Occurrence.Bound tie.right scopes ⟨role, r'.id id, r'.token token⟩) :
    tie.Occurs (sames scopes.length) ⟨role, r.id id, r.token token⟩
      ⟨role, r'.id id, r'.token token⟩ where
  left := h.numbered
  right := h'.numbered
  distance := h'.recorded.trans h.recorded.symm
  line := hline token.line
  named _ := rfl
  renamed d hd := by
    rw [h.recorded, List.findIdx?_eq_some_iff_getElem] at hd
    exact ⟨.same, List.getElem?_replicate_of_lt hd.1, rfl⟩
  free := h.free
  there _ := .inl rfl

theorem Tie.alike_relabel (hline : tie.Relines r r') (token : Token) :
    tie.Alike (r.token token) (r'.token token) :=
  ⟨rfl, rfl, hline token.line⟩

theorem Tie.declares_relabel {name : Token} (n : Nat) (h : (r.token name).IsFree) :
    Tie.Declares (Renaming.innermost (sames n)) (r.token name) (r'.token name) := by
  rw [Renaming.innermost_sames]
  exact ⟨rfl, h⟩

theorem Expr.Bound.of_subset {record : Record} {scopes : List Scope} {e part : Expr}
    (h : e.Bound record scopes) (hsub : part.occurrences ⊆ e.occurrences) :
    part.Bound record scopes :=
  fun o ho => h o (hsub ho)

mutual

theorem Expr.Bound.twin (hline : tie.Relines r r') {scopes : List Scope} : (e : Expr) →
    (e.relabel r).Bound tie.left scopes → (e.relabel r').Bound tie.right scopes →
      (e.relabel r).Twin tie (sames scopes.length) (e.relabel r')
  | .literal _, _, _ => .literal
  | .grouping inner, h, h' => .grouping (Expr.Bound.twin hline inner h h')
  | .unary operator operand, h, h' =>
    .unary (Tie.alike_relabel hline operator) (Expr.Bound.twin hline operand h h')
  | .binary left operator right, h, h' =>
    .binary
      (Expr.Bound.twin hline left (h.of_subset (List.subset_append_left _ _))
        (h'.of_subset (List.subset_append_left _ _)))
      (Tie.alike_relabel hline operator)
      (Expr.Bound.twin hline right (h.of_subset (List.subset_append_right _ _))
        (h'.of_subset (List.subset_append_right _ _)))
  | .logical left operator right, h, h' =>
    .logical
      (Expr.Bound.twin hline left (h.of_subset (List.subset_append_left _ _))
        (h'.of_subset (List.subset_append_left _ _)))
      (Tie.alike_relabel hline operator)
      (Expr.Bound.twin hline right (h.of_subset (List.subset_append_right _ _))
        (h'.of_subset (List.subset_append_right _ _)))
  | .var _ _, h, h' =>
    .var (.of_bound hline (h _ (List.mem_singleton_self _)) (h' _ (List.mem_singleton_self _)))
  | .this _ _, h, h' =>
    .this (.of_bound hline (h _ (List.mem_singleton_self _)) (h' _ (List.mem_singleton_self _)))
  | .assign _ _ value, h, h' =>
    .assign (.of_bound hline (h _ List.mem_cons_self) (h' _ List.mem_cons_self))
      (Expr.Bound.twin hline value (h.of_subset (List.subset_cons_self _ _))
        (h'.of_subset (List.subset_cons_self _ _)))
  | .call callee paren arguments, h, h' =>
    .call
      (Expr.Bound.twin hline callee (h.of_subset (List.subset_append_left _ _))
        (h'.of_subset (List.subset_append_left _ _)))
      (Tie.alike_relabel hline paren)
      (Expr.Bound.twinAll hline arguments (fun o ho => h o (List.mem_append_right _ ho))
        fun o ho => h' o (List.mem_append_right _ ho))
  | .get object name, h, h' =>
    .get (Expr.Bound.twin hline object h h') (Tie.alike_relabel hline name)
  | .set object name value, h, h' =>
    .set
      (Expr.Bound.twin hline object (h.of_subset (List.subset_append_left _ _))
        (h'.of_subset (List.subset_append_left _ _)))
      (Tie.alike_relabel hline name)
      (Expr.Bound.twin hline value (h.of_subset (List.subset_append_right _ _))
        (h'.of_subset (List.subset_append_right _ _)))

theorem Expr.Bound.twinAll (hline : tie.Relines r r') {scopes : List Scope} : (es : List Expr) →
    (∀ o ∈ Expr.occurrencesIn (Expr.relabelAll r es), o.Bound tie.left scopes) →
      (∀ o ∈ Expr.occurrencesIn (Expr.relabelAll r' es), o.Bound tie.right scopes) →
      Expr.TwinAll tie (sames scopes.length) (Expr.relabelAll r es) (Expr.relabelAll r' es)
  | [], _, _ => .nil
  | first :: more, h, h' =>
    .cons
      (Expr.Bound.twin hline first (fun o ho => h o (List.mem_append_left _ ho))
        fun o ho => h' o (List.mem_append_left _ ho))
      (Expr.Bound.twinAll hline more (fun o ho => h o (List.mem_append_right _ ho))
        fun o ho => h' o (List.mem_append_right _ ho))

end

theorem Expr.BoundIfAny.twin (hline : tie.Relines r r') {scopes : List Scope} (value : Option Expr)
    (h : Expr.BoundIfAny tie.left scopes (value.map (Expr.relabel r)))
    (h' : Expr.BoundIfAny tie.right scopes (value.map (Expr.relabel r'))) :
    Option.Rel (Expr.Twin tie (sames scopes.length)) (value.map (Expr.relabel r))
      (value.map (Expr.relabel r')) := by
  cases value with
  | none => exact .none
  | some value => exact .some (Expr.Bound.twin hline value h h')

@[simp] theorem length_declaring (name : String) (scopes : List Scope) :
    (declaring name scopes).length = scopes.length := by
  cases scopes <;> rfl

@[simp] theorem length_introducing (name : Token) (scopes : List Scope) :
    (introducing scopes name).length = scopes.length := by
  cases scopes <;> rfl

theorem length_parameters (params : List Token) (scopes : List Scope) :
    (params.foldl introducing scopes).length = scopes.length := by
  induction params generalizing scopes with
  | nil => rfl
  | cons param more ih => rw [List.foldl_cons, ih, length_introducing]

@[simp] theorem length_after (scopes : List Scope) (t : Stmt) :
    (t.after scopes).length = scopes.length := by
  unfold Stmt.after
  cases t.declared? with
  | none => rfl
  | some name => exact length_introducing name scopes

/-- Scopes are made of names alone. -/
theorem parameters_relabel (params : List Token) (scopes : List Scope) :
    (params.map r.token).foldl introducing scopes = params.foldl introducing scopes := by
  rw [List.foldl_map]
  rfl

theorem after_relabel (scopes : List Scope) (t : Stmt) :
    (t.relabel r).after scopes = t.after scopes := by
  cases t with
  | funDecl declaration =>
    cases declaration
    rfl
  | _ => rfl

mutual

/-- A statement that is bound on both sides is a twin of itself. -/
theorem Stmt.Bound.twin (hline : tie.Relines r r') {scopes : List Scope} : (t : Stmt) →
    (t.relabel r).Bound tie.left scopes → (t.relabel r').Bound tie.right scopes →
      (t.relabel r).Twin tie (sames scopes.length) (t.relabel r')
  | .expression value, h, h' => .expression (Expr.Bound.twin hline value h h')
  | .print value, h, h' => .print (Expr.Bound.twin hline value h h')
  | .varDecl name value, h, h' => by
    have initializer := Expr.BoundIfAny.twin hline value h.2 h'.2
    rw [length_declaring] at initializer
    exact .varDecl (Tie.declares_relabel _ h.1) initializer
  | .block body, h, h' => .block .same (Stmt.Bound.twins hline body h h')
  | .ifThen condition branch, h, h' =>
    .ifThen (Expr.Bound.twin hline condition h.1 h'.1) (Stmt.Bound.twin hline branch h.2.2 h'.2.2)
  | .ifElse condition first second, h, h' =>
    .ifElse (Expr.Bound.twin hline condition h.1 h'.1) (Stmt.Bound.twin hline first h.2.1.2 h'.2.1.2)
      (Stmt.Bound.twin hline second h.2.2.2 h'.2.2.2)
  | .whileLoop condition body, h, h' =>
    .whileLoop (Expr.Bound.twin hline condition h.1 h'.1) (Stmt.Bound.twin hline body h.2.2 h'.2.2)
  | .funDecl ⟨name, params, body⟩, h, h' => by
    have f := FunctionDecl.Bound.twin hline ⟨name, params, body⟩ h.2 h'.2
    rw [length_introducing] at f
    exact .funDecl (Tie.declares_relabel _ h.1) f
  | .returns keyword value, h, h' => .returns (Expr.BoundIfAny.twin hline value h h')
  | .classDecl name methods, h, h' => by
    have twins := FunctionDecl.Bound.twins hline methods h.2 h'.2
    rw [List.length_cons, length_introducing] at twins
    exact .classDecl (Tie.declares_relabel _ h.1) rfl twins

theorem FunctionDecl.Bound.twin (hline : tie.Relines r r') {scopes : List Scope} : (f : FunctionDecl) →
    (f.relabel r).Bound tie.left scopes → (f.relabel r').Bound tie.right scopes →
      (f.relabel r).Twin tie (sames scopes.length) (f.relabel r')
  | ⟨name, params, body⟩, h, h' => by
    have inside := h.2
    have inside' := h'.2
    rw [parameters_relabel] at inside inside'
    have twins := Stmt.Bound.twins hline body inside inside'
    rw [length_parameters, List.length_cons] at twins
    refine .intro .same (Tie.alike_relabel hline name) ?_ twins
    refine List.forall₂_map_left_iff.mpr (List.forall₂_map_right_iff.mpr ?_)
    refine List.forall₂_same.mpr fun param hparam => ⟨rfl, ?_⟩
    exact h.1 _ (List.mem_map_of_mem hparam)

/-- Statements that are bound on both sides are twins of themselves. -/
theorem Stmt.Bound.twins (hline : tie.Relines r r') {scopes : List Scope} : (body : List Stmt) →
    Stmt.BoundAll tie.left scopes (Stmt.relabelAll r body) →
      Stmt.BoundAll tie.right scopes (Stmt.relabelAll r' body) →
      Stmt.TwinAll tie (sames scopes.length) (Stmt.relabelAll r body) (Stmt.relabelAll r' body)
  | [], _, _ => .nil
  | first :: more, h, h' => by
    have behind := h.2
    have behind' := h'.2
    rw [after_relabel] at behind behind'
    have twins := Stmt.Bound.twins hline more behind behind'
    rw [length_after] at twins
    exact .cons (Stmt.Bound.twin hline first h.1 h'.1) twins

theorem FunctionDecl.Bound.twins (hline : tie.Relines r r') {scopes : List Scope} : (fs : List FunctionDecl) →
    FunctionDecl.BoundAll tie.left scopes (FunctionDecl.relabelAll r fs) →
      FunctionDecl.BoundAll tie.right scopes (FunctionDecl.relabelAll r' fs) →
      FunctionDecl.TwinAll tie (sames scopes.length) (FunctionDecl.relabelAll r fs)
        (FunctionDecl.relabelAll r' fs)
  | [], _, _ => .nil
  | first :: more, h, h' =>
    .cons (FunctionDecl.Bound.twin hline first h.1 h'.1) (FunctionDecl.Bound.twins hline more h.2 h'.2)

end

/-- What is bound on both sides as it is, is a twin of itself. -/
theorem Stmt.Bound.twins_self (hline : ∀ n, tie.line n n) {body : List Stmt}
    (h : Stmt.BoundAll tie.left [] body) (h' : Stmt.BoundAll tie.right [] body) :
    Stmt.TwinAll tie [] body body := by
  have relines : tie.Relines .none .none := hline
  rw [← Stmt.relabelAll_none body] at h h' ⊢
  exact Stmt.Bound.twins relines body h h'

end

end Lox
