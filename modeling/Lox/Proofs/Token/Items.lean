import Lox.Token.Lexer
import Lox.Syntax.Tree

/-!
# The items of a source, segment by segment

A place in a source goes over blanks to the next item. To reason about all items of a source it is
easier to go over segments: each is one item or none, and the items of a source are those of its first
segment and those of the rest (`items_cons`).
-/

namespace Lox

/-- The item that a segment is, if it is one. -/
def Segment.item? (segment : Segment) (line : Nat) : Option Item :=
  match segment.content with
  | .blank => none
  | .kind kind => some (.token ⟨kind, String.ofList segment.text, line⟩)
  | .issue cause => some (.issue line cause)

namespace Lexer

/-- All items of a source that starts on a line. -/
def itemsFrom (line : Nat) (cs : List Char) : List Item := Lexer.items ⟨line, some cs⟩

theorem items_end (line : Nat) : Lexer.items ⟨line, none⟩ = [] := by
  rw [items]
  rfl

theorem itemsFrom_eq (line : Nat) (cs : List Char) :
    itemsFrom line cs = (item line cs).1 :: (item line cs).2.items := by
  rw [itemsFrom, items]
  rfl

theorem itemsFrom_nil (line : Nat) : itemsFrom line [] = [.token (.eof line)] := by
  rw [itemsFrom_eq, item, items_end]

/-- The items of a source are the one of its first segment and those of the rest. -/
theorem itemsFrom_cons (line : Nat) (c : Char) (cs : List Char) :
    itemsFrom line (c :: cs) =
      ((segment c cs).item? (line + (segment c cs).text.count '\n')).toList ++
        itemsFrom (line + (segment c cs).text.count '\n') (segment c cs).rest := by
  rw [itemsFrom_eq, item, Segment.item?]
  cases (segment c cs).content with
  | blank =>
    show _ = itemsFrom _ _
    rw [itemsFrom_eq]
  | kind kind => rfl
  | issue cause => rfl

/-- The items of a source in so many segments at most, which can be computed. -/
def itemsWithin : Nat → Nat → List Char → List Item
  | _, line, [] => [.token (.eof line)]
  | 0, _, _ :: _ => []
  | fuel + 1, line, c :: cs =>
    let here := line + (segment c cs).text.count '\n'
    ((segment c cs).item? here).toList ++ itemsWithin fuel here (segment c cs).rest

/-- A source has no more segments than characters. -/
theorem itemsFrom_eq_itemsWithin {fuel line : Nat} {cs : List Char} (h : cs.length ≤ fuel) :
    itemsFrom line cs = itemsWithin fuel line cs := by
  induction fuel generalizing line cs with
  | zero =>
    obtain rfl := List.length_eq_zero_iff.mp (Nat.le_zero.mp h)
    exact itemsFrom_nil line
  | succ fuel ih =>
    cases cs with
    | nil => exact itemsFrom_nil line
    | cons c cs =>
      have shorter : (segment c cs).rest.length ≤ fuel :=
        Nat.le_trans (length_segment_rest_le c cs) (Nat.le_of_succ_le_succ h)
      rw [itemsFrom_cons, ih shorter, itemsWithin]

end Lexer

theorem itemsOf_eq_itemsWithin (source : String) :
    itemsOf source = Lexer.itemsWithin source.toList.length 1 source.toList :=
  Lexer.itemsFrom_eq_itemsWithin (Nat.le_refl _)

/-! ## Words -/

/-- The kinds of tokens that are words. -/
def TokenKind.IsWord : TokenKind → Prop
  | .keyword _ | .identifier => True
  | _ => False

/-- A word is of the kind that its spelling says. -/
def Token.IsSpelled (token : Token) : Prop :=
  token.kind.IsWord → token.kind = Segment.wordKind token.lexeme

theorem wordKind_of_segment {c : Char} {cs : List Char} {kind : TokenKind} (hword : kind.IsWord)
    (h : (segment c cs).content = .kind kind) :
    kind = Segment.wordKind (String.ofList (segment c cs).text) := by
  revert h
  unfold segment
  split
  · rintro ⟨⟩
    cases hword
  · unfold Segment.operator
    split <;> rintro ⟨⟩ <;> cases hword
  · split
    · rintro ⟨⟩
    split
    · unfold Segment.slash
      split <;> rintro ⟨⟩
      cases hword
    split
    · unfold Segment.string
      split <;> rintro ⟨⟩
      cases hword
    split
    · unfold Segment.numeral Segment.number
      split
      · split <;> rintro ⟨⟩ <;> cases hword
      · rintro ⟨⟩
        cases hword
    split
    · rintro ⟨⟩
      rfl
    · rintro ⟨⟩

private theorem isSpelled_of_items {token : Token} (line : Nat) (cs : List Char)
    (hmem : .token token ∈ Lexer.itemsFrom line cs) : token.IsSpelled := by
  match cs with
  | [] =>
    rw [Lexer.itemsFrom_nil, List.mem_singleton] at hmem
    injection hmem with hmem
    subst hmem
    exact fun hword => hword.elim
  | c :: more =>
    rw [Lexer.itemsFrom_cons, List.mem_append, Option.mem_toList] at hmem
    rcases hmem with hfirst | hrest
    · rw [Segment.item?] at hfirst
      split at hfirst
      · cases hfirst
      · next kind hcontent =>
        injection hfirst with hfirst
        injection hfirst with hfirst
        subst hfirst
        exact fun hword => wordKind_of_segment hword hcontent
      · cases hfirst
    · exact isSpelled_of_items _ _ hrest
  termination_by cs.length
  decreasing_by exact Nat.lt_succ_of_le (length_segment_rest_le c more)

/-- The words of a source are of the kinds that their spellings say. -/
theorem isSpelled_of_mem {source : String} {token : Token} (hmem : token ∈ tokensOf source) :
    token.IsSpelled := by
  obtain ⟨item, hitem, htoken⟩ := List.mem_filterMap.mp hmem
  cases item with
  | issue line cause => nomatch htoken
  | token t =>
    injection htoken with htoken
    exact htoken ▸ isSpelled_of_items 1 source.toList hitem

namespace Token.IsSpelled

variable {token : Token}

/-- The word for the receiver is its name. -/
theorem lexeme_this (h : token.IsSpelled) (hkind : token.kind = .keyword .thisKw) :
    token.lexeme = receiverName := by
  have spelled := h (hkind ▸ trivial)
  rw [hkind, Segment.wordKind] at spelled
  split at spelled
  · next keyword hword =>
    injection spelled with spelled
    rw [← Keyword.spelling_of_ofSpelling? hword, ← spelled]
    rfl
  · nomatch spelled

/-- No identifier is the name of the receiver. -/
theorem lexeme_identifier (h : token.IsSpelled) (hkind : token.kind = .identifier) :
    token.lexeme ≠ receiverName := by
  intro hlexeme
  have spelled := h (hkind ▸ trivial)
  rw [hkind, hlexeme] at spelled
  exact absurd spelled (by decide)

end Token.IsSpelled

end Lox
