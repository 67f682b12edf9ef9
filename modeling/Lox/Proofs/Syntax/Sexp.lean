import Lox.Syntax.Printer
import Mathlib.Data.List.Forall2

/-!
# Texts in prefix form

A text in prefix form is a `Sexp`: an atom, or more of them in parentheses with blanks between them.
Atoms are not empty and hold neither blanks nor parentheses, so a text writes one of them at most
(`Writes.unique`). That one is found from left to right with a stack of the lists that are still open
(`Scan`).
-/

namespace Lox

/-- What a text in prefix form says: an atom, or a list with what is in it. -/
inductive Sexp where
  | atom (text : String)
  | list (parts : List Sexp)

/-! ## Scanning -/

/-- A place in a text: the atom that ends there, what stands in front of it in the innermost list that
is open, and the same for the lists around. -/
structure Scan where
  atom : List Char
  parts : List Sexp
  outer : List (List Sexp)

namespace Scan

/-- The parts of the innermost list, if the atom ends there. -/
def closed (s : Scan) : List Sexp :=
  match s.atom with
  | [] => s.parts
  | first :: more => s.parts ++ [.atom (String.ofList (first :: more))]

/-- One character further. -/
def step (s : Scan) (c : Char) : Scan :=
  match c with
  | ' ' => ⟨[], s.closed, s.outer⟩
  | '(' => ⟨[], [], s.closed :: s.outer⟩
  | ')' =>
    match s.outer with
    | [] => s
    | parts :: outer => ⟨[], parts ++ [.list s.closed], outer⟩
  | c => ⟨s.atom ++ [c], s.parts, s.outer⟩

/-- A whole text further. -/
def after (s : Scan) (text : List Char) : Scan := text.foldl step s

theorem after_append (s : Scan) (text more : List Char) :
    s.after (text ++ more) = (s.after text).after more :=
  List.foldl_append

theorem after_cons (s : Scan) (c : Char) (text : List Char) : s.after (c :: text) = (s.step c).after text :=
  rfl

end Scan

/-! ## Atoms -/

/-- The characters of an atom. -/
def InAtom (c : Char) : Prop := c ≠ ' ' ∧ c ≠ '(' ∧ c ≠ ')'

instance : DecidablePred InAtom := fun _ => inferInstanceAs (Decidable (_ ∧ _))

/-- A text that cannot be taken apart. -/
def IsAtom (text : String) : Prop := text.toList ≠ [] ∧ ∀ c ∈ text.toList, InAtom c

-- character by character of the text, not of all characters
instance : DecidablePred IsAtom := fun text =>
  @instDecidableAnd _ _ inferInstance (List.decidableBAll InAtom text.toList)

theorem Scan.step_inAtom {c : Char} (h : InAtom c) (s : Scan) :
    s.step c = ⟨s.atom ++ [c], s.parts, s.outer⟩ := by
  unfold Scan.step
  split
  · exact absurd rfl h.1
  · exact absurd rfl h.2.1
  · exact absurd rfl h.2.2
  · rfl

theorem Scan.after_inAtom {text : List Char} (h : ∀ c ∈ text, InAtom c) (s : Scan) :
    s.after text = ⟨s.atom ++ text, s.parts, s.outer⟩ := by
  induction text generalizing s with
  | nil =>
    rw [List.append_nil]
    rfl
  | cons c text ih =>
    obtain ⟨hc, htext⟩ := List.forall_mem_cons.mp h
    rw [after_cons, step_inAtom hc, ih htext, List.append_assoc, List.singleton_append]

/-! ## Texts -/

/-- The text writes this: behind it, the innermost list has one more part. -/
def Writes (text : String) (p : Sexp) : Prop :=
  ∀ parts outer, let s := Scan.after ⟨[], parts, outer⟩ text.toList
    s.closed = parts ++ [p] ∧ s.outer = outer

/-- Texts that write these one by one. -/
abbrev WritesAll : List String → List Sexp → Prop := List.Forall₂ Writes

/-- A text writes one at most. -/
theorem Writes.unique {text : String} {p q : Sexp} (hp : Writes text p) (hq : Writes text q) :
    p = q := by
  have same := (hp [] []).1.symm.trans (hq [] []).1
  exact List.singleton_inj.mp (List.append_cancel_left same)

/-- An atom writes itself. -/
theorem writes_atom {text : String} (h : IsAtom text) : Writes text (.atom text) := by
  intro parts outer
  obtain ⟨c, more, htext⟩ := List.exists_cons_of_ne_nil h.1
  rw [Scan.after_inAtom h.2, List.nil_append, ← String.ofList_toList (s := text), htext,
    String.toList_ofList]
  exact ⟨rfl, rfl⟩

/-- Texts with blanks between them become parts of the innermost list one by one. -/
theorem after_intercalate {texts : List String} {ps : List Sexp} (h : WritesAll texts ps)
    (parts : List Sexp) (outer : List (List Sexp)) :
    let s := Scan.after ⟨[], parts, outer⟩ (" ".intercalate texts).toList
    s.closed = parts ++ ps ∧ s.outer = outer := by
  induction h generalizing parts with
  | nil => exact ⟨(List.append_nil parts).symm, rfl⟩
  | @cons text p texts ps hfirst hmore ih =>
    cases hmore with
    | nil => exact hfirst parts outer
    | @cons next q texts ps hnext hmore =>
      obtain ⟨hclosed, houter⟩ := hfirst parts outer
      have apart : (" ".intercalate (text :: next :: texts)).toList =
          text.toList ++ ' ' :: (" ".intercalate (next :: texts)).toList := by
        rw [String.intercalate_cons_cons, String.toList_append, String.toList_append, List.append_assoc]
        rfl
      have further := ih (parts ++ [p])
      rw [apart, Scan.after_append, Scan.after_cons, Scan.step, hclosed, houter]
      rwa [List.append_assoc, List.singleton_append] at further

/-- Texts in parentheses write a list. -/
theorem writes_list {texts : List String} {ps : List Sexp} (h : WritesAll texts ps) :
    Writes (parenthesized texts) (.list ps) := by
  intro parts outer
  obtain ⟨hclosed, houter⟩ := after_intercalate h [] (parts :: outer)
  have apart : (parenthesized texts).toList = '(' :: ((" ".intercalate texts).toList ++ [')']) := by
    rw [parenthesized, String.toList_append, String.toList_append]
    rfl
  have opened : Scan.step ⟨[], parts, outer⟩ '(' = ⟨[], [], parts :: outer⟩ := rfl
  rw [apart, Scan.after_cons, opened, Scan.after_append, Scan.after_cons, Scan.step, houter, hclosed]
  exact ⟨rfl, rfl⟩

end Lox
