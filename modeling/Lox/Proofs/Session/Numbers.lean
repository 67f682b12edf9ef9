import Lox.Proofs.Number.Bits
import Lox.Proofs.Number.Written
import Lox.Proofs.Session.Following
import Lox.Proofs.Syntax.Canonical
import Lox.Proofs.Token.Spacing
import Lox.Proofs.Trace.Properties

/-!
# Printed numbers read back

What is printed of a finite number is a source. It is a numeral, one token, with a minus in front of it if
the number has one (`tokensOf_signed`), and to evaluate it gives the number again, bit by bit
(`number_reads_back`).
-/

namespace Lox

/-- A numeral: digits and, behind a point, maybe more of them. -/
def Numeral (text : List Char) : Prop :=
  Digits text ∨ ∃ whole fraction, Digits whole ∧ Digits fraction ∧ text = whole ++ '.' :: fraction

/-- The minus at the start of a source. -/
def minusToken : Token := ⟨.symbol .minus, "-", 1⟩

/-- The tokens of a numeral with a minus in front of it, if it is to have one. -/
def signedTokens (negative : Bool) (value : Float) (numeral : String) : List Token :=
  let token := ⟨.number value, numeral, 1⟩
  if negative then [minusToken, token] else [token]

/-- The same as an expression. -/
def signedExpr (negative : Bool) (value : Float) : Expr :=
  if negative then .unary minusToken (.literal (.number value)) else .literal (.number value)

/-! ## One token -/

theorem Lexical.numeral {value : Float} {text : List Char} (h : Lexical (.kind (.number value)) text) :
    Numeral text := by
  generalize hcontent : Content.kind (.number value) = content at h
  cases h with
  | whole hdigits => exact .inl hdigits
  | fractional hwhole hfraction => exact .inr ⟨_, _, hwhole, hfraction, rfl⟩
  | _ => nomatch hcontent

/-- A numeral is on one line. -/
theorem Numeral.count_line {text : List Char} (h : Numeral text) : text.count '\n' = 0 := by
  have digit {cs : List Char} (h : Digits cs) : '\n' ∉ cs := fun hmem => nomatch h.2 _ hmem
  refine List.count_eq_zero_of_not_mem fun hmem => ?_
  rcases h with hdigits | ⟨whole, fraction, hwhole, hfraction, rfl⟩
  · exact digit hdigits hmem
  · rcases List.mem_append.mp hmem with hmem | hmem
    · exact digit hwhole hmem
    · rcases List.mem_cons.mp hmem with hpoint | hmem
      · nomatch hpoint
      · exact digit hfraction hmem

section

variable {value : Float} {numeral : String}

/-- A numeral on its own is one token. -/
theorem wordsFrom_numeral (h : Lexical (.kind (.number value)) numeral.toList) :
    Lexer.wordsFrom 1 numeral.toList = [.token ⟨.number value, numeral, 1⟩] := by
  have alone : Lexer.wordsFrom 1 (numeral.toList ++ []) = _ := wordsFrom_lexeme h 1 nofun
  rwa [h.numeral.count_line, Lexer.wordsFrom_nil, List.append_nil, String.ofList_toList] at alone

/-- A minus in front of it is another one. -/
theorem wordsFrom_signed (h : Lexical (.kind (.number value)) numeral.toList) (negative : Bool) :
    Lexer.wordsFrom 1 (Number.signText negative ++ numeral).toList =
      (signedTokens negative value numeral).map Item.token := by
  cases negative with
  | false =>
    rw [Number.signText, if_neg Bool.false_ne_true, String.empty_append, wordsFrom_numeral h]
    rfl
  | true =>
    have minus : segment '-' numeral.toList = ⟨.kind (.symbol .minus), ['-'], numeral.toList⟩ := rfl
    have chars : (Number.signText true ++ numeral).toList = '-' :: numeral.toList := String.toList_append
    rw [chars, Lexer.wordsFrom_cons, minus]
    exact congrArg (_ :: ·) (wordsFrom_numeral h)

variable (h : Lexical (.kind (.number value)) numeral.toList) (negative : Bool)

include h

theorem wordsOf_signed : wordsOf (Number.signText negative ++ numeral) =
    signedTokens negative value numeral := by
  rw [wordsOf_eq, wordsFrom_signed h, List.filterMap_map]
  exact List.filterMap_some

theorem lexicalIssuesOf_signed : lexicalIssuesOf (Number.signText negative ++ numeral) = [] := by
  rw [lexicalIssuesOf_eq, wordsFrom_signed h, List.filterMap_map]
  exact List.filterMap_eq_nil_iff.mpr fun _ _ => rfl

theorem tokensOf_signed : tokensOf (Number.signText negative ++ numeral) =
    signedTokens negative value numeral ++ [.eof 1] := by
  have line : linesOf (Number.signText negative ++ numeral) = 1 := by
    rw [linesOf, String.toList_append, List.count_append, h.numeral.count_line]
    cases negative <;> rfl
  rw [tokensOf_eq_wordsOf, wordsOf_signed h, line]

/-! ## One value -/

/-- The tokens are the number as an expression, and there is nothing to resolve in it. -/
theorem checkExpression_signed (n : OccurrenceId) :
    checkExpression n (Number.signText negative ++ numeral) =
      ⟨.ok (signedExpr negative value, []), n⟩ := by
  have resolved : resolveExpression (signedExpr negative value) = .ok [] := by cases negative <;> rfl
  refine check_eq (lexicalIssuesOf_signed h negative) (parseExpression_eq_ok.mpr ?_) resolved
  show ReadsExpr .whole n (wordsOf _) _ n
  rw [wordsOf_signed h]
  have literal : ReadsExpr .primary n [⟨.number value, numeral, 1⟩] (.literal (.number value)) n :=
    .literal rfl
  cases negative with
  | false => exact reads_at (Nat.zero_le 9) literal
  | true =>
    have unary : ReadsExpr .prefixed n [minusToken, ⟨.number value, numeral, 1⟩] _ n :=
      .unary rfl (.applied (.primary literal))
    exact reads_at (Nat.zero_le 7) unary

end

/-- A minus in front of a number negates it. -/
theorem evaluate_signed (fuel : Nat) (negative : Bool) (value : Float) (m : Machine) :
    Run.evaluate (fuel + 2) (signedExpr negative value) m =
      .ok (.number (if negative then -value else value)) m := by
  cases negative <;> rfl

/-- What is printed of a finite number is a numeral, digits that may have a point between them, with a minus
in front of it if the number has one. The scanner takes the numeral as one token. In any session, to evaluate
what is printed gives the number, which is equal to itself. -/
theorem number_reads_back {x : Float} (h : x.isFinite = true) (heap : Heap) (s : Session) (fuel : Nat) :
    let printed := (Value.number x).text heap
    (∃ negative numeral value, printed = Number.signText negative ++ numeral ∧
        Numeral numeral.toList ∧
        tokensOf printed = signedTokens negative value numeral ++ [.eof 1] ∧
        (if negative then -value else value) = x) ∧
      (s.evaluate (fuel + 2) printed).1 = .done (.number x) ∧
      (Value.number x).equals (.number x) = true := by
  intro printed
  obtain ⟨negative, magnitude, hview, hfinite, hsigned⟩ := Number.view_of_isFinite h
  obtain ⟨d, hmagnitude, htext⟩ := Number.valueText_eq hview hfinite
  have lexical := d.lexical_positional
  have printed_eq : printed = Number.signText negative ++ d.positional := htext
  -- the numeral has the magnitude, and the minus gives it the sign again
  have value : (if negative then -d.toFloat else d.toFloat) = x := by
    rw [Number.Decimal.toFloat, hmagnitude]
    exact hsigned
  have passed := congrArg Checked.result (checkExpression_signed lexical negative s.nextId)
  have evaluated := evaluate_signed fuel negative d.toFloat (s.idle.adopt [])
  rw [printed_eq]
  refine ⟨⟨_, _, _, rfl, lexical.numeral, tokensOf_signed lexical negative, value⟩, ?_, ?_⟩
  · rw [Session.evaluate, perform_done passed evaluated, value]
  · exact Value.equals_self fun hnan => Bool.false_ne_true ((Number.isNaN_of_isFinite h).symm.trans hnan)

/-- What is printed of minus one half is read back. -/
theorem number_reads_back_half :
    (Float.ofBits 0xBFE0000000000000).isFinite = true ∧
      (Value.number (Float.ofBits 0xBFE0000000000000)).text .empty = "-0.5" ∧
      (Session.evaluate 2 (.start (.start (.start none) (.start []))) "-0.5").1 =
        .done (.number (Float.ofBits 0xBFE0000000000000)) := by
  have printed : (Value.number (Float.ofBits 0xBFE0000000000000)).text .empty = "-0.5" := by
    decide +kernel
  refine ⟨rfl, printed, ?_⟩
  rw [← printed]
  exact (number_reads_back rfl .empty (.start (.start (.start none) (.start []))) 0).2.1

end Lox
