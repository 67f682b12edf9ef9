import Lox.Proofs.Token.Grammar
import Lox.Proofs.Token.Items

/-!
# A source and its pieces

A source falls into pieces, one behind the other, and each byte belongs to one of them. A piece is a
blank, a comment, a token or an issue, and it is cut off as the lexical grammar says. The items of a
source are those of its pieces, on the lines on which the pieces end; then comes the end of the source,
and then nothing more (`items_segmented`).
-/

namespace Lox

/-! ## Pieces -/

/-- A piece of a source, with what stands before and behind it. -/
structure Piece where
  before : String
  text : String
  after : String
  content : Content

namespace Piece

/-- The source of which it is a piece. -/
def source (p : Piece) : String := p.before ++ p.text ++ p.after

/-- The first byte. -/
def start (p : Piece) : Nat := p.before.utf8ByteSize

/-- The byte behind the last one. -/
def stop (p : Piece) : Nat := (p.before ++ p.text).utf8ByteSize

/-- The line on which it ends. -/
def line (p : Piece) : Nat := 1 + (p.before ++ p.text).toList.count '\n'

/-- The item that it is, if it is one. -/
def item? (p : Piece) : Option Item :=
  match p.content with
  | .blank => none
  | .kind kind => some (.token ⟨kind, p.text, p.line⟩)
  | .issue cause => some (.issue p.line cause)

/-- It is cut off as the grammar says, and as long as it can be. -/
structure Cut (p : Piece) : Prop where
  cut : Segment.Cut ⟨p.content, p.text.toList, p.after.toList⟩
  longest : ∀ content text, Lexical content text → text <+: (p.text ++ p.after).toList →
    text.length ≤ p.text.toList.length

end Piece

/-- A source falls into pieces, from its start to its end. -/
structure Segmentation (source : String) (pieces : List Piece) : Prop where
  whole : ∀ p ∈ pieces, p.source = source
  nonempty : ∀ p ∈ pieces, p.start < p.stop
  increasing : pieces.Pairwise fun p q => p.stop ≤ q.start
  everywhere : ∀ k < source.utf8ByteSize, ∃! p, p ∈ pieces ∧ p.start ≤ k ∧ k < p.stop
  cut : ∀ p ∈ pieces, p.Cut

/-! ## The pieces of a source -/

/-- The pieces of a source from a place on. -/
def piecesFrom (before : List Char) (cs : List Char) : List Piece :=
  match cs with
  | [] => []
  | c :: more =>
    ⟨String.ofList before, String.ofList (segment c more).text, String.ofList (segment c more).rest,
        (segment c more).content⟩ ::
      piecesFrom (before ++ (segment c more).text) (segment c more).rest
  termination_by cs.length
  decreasing_by exact Nat.lt_succ_of_le (length_segment_rest_le c more)

theorem text_ne_nil (c : Char) (more : List Char) : (segment c more).text ≠ [] := by
  intro h
  have start := head?_segment_text c more
  rw [h] at start
  nomatch start

theorem start_le_of_mem {before cs : List Char} {p : Piece} (h : p ∈ piecesFrom before cs) :
    (String.ofList before).utf8ByteSize ≤ p.start := by
  fun_induction piecesFrom before cs with
  | case1 => nomatch h
  | case2 before c more ih =>
    rcases List.mem_cons.mp h with rfl | h
    · exact Nat.le_refl _
    · refine Nat.le_trans ?_ (ih h)
      rw [String.ofList_append, String.utf8ByteSize_append]
      exact Nat.le_add_right _ _

theorem whole_of_mem {before cs : List Char} {p : Piece} (h : p ∈ piecesFrom before cs) :
    p.source = String.ofList (before ++ cs) := by
  fun_induction piecesFrom before cs with
  | case1 => nomatch h
  | case2 before c more ih =>
    rcases List.mem_cons.mp h with rfl | h
    · rw [Piece.source, ← String.ofList_append, ← String.ofList_append, List.append_assoc, segment_append]
    · rw [ih h, List.append_assoc, segment_append]

theorem nonempty_of_mem {before cs : List Char} {p : Piece} (h : p ∈ piecesFrom before cs) :
    p.start < p.stop := by
  fun_induction piecesFrom before cs with
  | case1 => nomatch h
  | case2 before c more ih =>
    rcases List.mem_cons.mp h with rfl | h
    · rw [Piece.start, Piece.stop, String.utf8ByteSize_append]
      refine Nat.lt_add_of_pos_right (Nat.pos_of_ne_zero fun hzero => text_ne_nil c more ?_)
      exact String.ofList_eq_empty_iff.mp (String.utf8ByteSize_eq_zero_iff.mp hzero)
    · exact ih h

theorem cut_of_mem {before cs : List Char} {p : Piece} (h : p ∈ piecesFrom before cs) : p.Cut := by
  fun_induction piecesFrom before cs with
  | case1 => nomatch h
  | case2 before c more ih =>
    rcases List.mem_cons.mp h with rfl | h
    · constructor
      · simp only [String.toList_ofList]
        exact segment_cut c more
      · intro content text hlexical hbegins
        simp only [← String.ofList_append, String.toList_ofList, segment_append] at hbegins ⊢
        exact length_le_segment hlexical hbegins
    · exact ih h

theorem increasing_pieces (before cs : List Char) :
    (piecesFrom before cs).Pairwise fun p q => p.stop ≤ q.start := by
  fun_induction piecesFrom before cs with
  | case1 => exact .nil
  | case2 before c more ih =>
    refine .cons (fun q hq => ?_) ih
    rw [Piece.stop, ← String.ofList_append]
    exact start_le_of_mem hq

theorem exists_piece {before cs : List Char} {k : Nat}
    (hstart : (String.ofList before).utf8ByteSize ≤ k)
    (hstop : k < (String.ofList (before ++ cs)).utf8ByteSize) :
    ∃ p ∈ piecesFrom before cs, p.start ≤ k ∧ k < p.stop := by
  fun_induction piecesFrom before cs with
  | case1 before =>
    rw [List.append_nil] at hstop
    exact absurd hstart (Nat.not_le.mpr hstop)
  | case2 before c more ih =>
    by_cases hk : k < (String.ofList (before ++ (segment c more).text)).utf8ByteSize
    · refine ⟨_, List.mem_cons_self, hstart, ?_⟩
      rwa [Piece.stop, ← String.ofList_append]
    · rw [← segment_append, ← List.append_assoc] at hstop
      obtain ⟨p, hp, hk⟩ := ih (Nat.not_lt.mp hk) hstop
      exact ⟨p, List.mem_cons_of_mem _ hp, hk⟩

/-- Pieces one behind the other have no byte in common. -/
theorem unique_of_increasing {pieces : List Piece}
    (h : pieces.Pairwise fun p q => p.stop ≤ q.start) {p q : Piece} (hp : p ∈ pieces)
    (hq : q ∈ pieces) {k : Nat} (hkp : p.start ≤ k ∧ k < p.stop) (hkq : q.start ≤ k ∧ k < q.stop) :
    p = q := by
  induction h with
  | nil => nomatch hp
  | cons hfirst _ ih =>
    rcases List.mem_cons.mp hp with rfl | hp' <;> rcases List.mem_cons.mp hq with rfl | hq'
    · rfl
    · have := hfirst q hq'
      omega
    · have := hfirst p hp'
      omega
    · exact ih hp' hq'

/-- The pieces of a source. -/
def piecesOf (source : String) : List Piece := piecesFrom [] source.toList

theorem segmentation_piecesOf (source : String) : Segmentation source (piecesOf source) where
  whole p hp := by
    rw [whole_of_mem hp, List.nil_append, String.ofList_toList]
  nonempty _ := nonempty_of_mem
  increasing := increasing_pieces _ _
  everywhere k hk := by
    have stop : k < (String.ofList ([] ++ source.toList)).utf8ByteSize := by
      rwa [List.nil_append, String.ofList_toList]
    obtain ⟨p, hp, hpk⟩ := exists_piece (Nat.zero_le k) stop
    refine ⟨p, ⟨hp, hpk⟩, fun q ⟨hq, hqk⟩ => ?_⟩
    exact unique_of_increasing (increasing_pieces _ _) hq hp hqk hpk
  cut _ := cut_of_mem

/-! ## Items -/

/-- The items of a source from a place on are those of its pieces. -/
theorem itemsFrom_pieces (before cs : List Char) :
    Lexer.itemsFrom (1 + before.count '\n') cs =
      (piecesFrom before cs).filterMap Piece.item? ++
        [.token (.eof (1 + (before ++ cs).count '\n'))] := by
  fun_induction piecesFrom before cs with
  | case1 before =>
    rw [Lexer.itemsFrom_nil, List.append_nil]
    rfl
  | case2 before c more ih =>
    have line : 1 + before.count '\n' + (segment c more).text.count '\n' =
        1 + (before ++ (segment c more).text).count '\n' := by
      rw [List.count_append, Nat.add_assoc]
    rw [List.append_assoc, segment_append] at ih
    rw [Lexer.itemsFrom_cons, line, ih, List.filterMap_cons]
    have item : Piece.item? ⟨String.ofList before, String.ofList (segment c more).text,
        String.ofList (segment c more).rest, (segment c more).content⟩ =
          (segment c more).item? (1 + (before ++ (segment c more).text).count '\n') := by
      rw [Piece.item?, Piece.line, ← String.ofList_append, String.toList_ofList]
      rfl
    rw [item]
    cases (segment c more).item? _ <;> rfl

theorem itemsOf_pieces (source : String) :
    itemsOf source = (piecesOf source).filterMap Piece.item? ++
      [.token (.eof (1 + source.toList.count '\n'))] :=
  itemsFrom_pieces [] source.toList

/-- No piece is the end of the source. -/
theorem Piece.Cut.ne_eof {p : Piece} (h : p.Cut) : p.content ≠ .kind .eof := by
  intro heof
  obtain ⟨hcut, -⟩ := h
  generalize p.text.toList = text at hcut
  generalize p.content = content at hcut heof
  subst heof
  cases hcut with
  | lexeme hlexical => nomatch hlexical

/-! ## Asking for items -/

namespace Lexer

/-- What a lexer answers if it is asked for its next item, and where it is then. Where nothing is left,
it stays. -/
def ask (lexer : Lexer) : Option Item × Lexer :=
  match lexer.next? with
  | none => (none, lexer)
  | some (item, rest) => (some item, rest)

/-- What a lexer answers after it has been asked some times before. -/
def answer (lexer : Lexer) : Nat → Option Item
  | 0 => lexer.ask.1
  | n + 1 => lexer.ask.2.answer n

theorem items_of_none {lexer : Lexer} (h : lexer.next? = none) : lexer.items = [] := by
  rw [items]
  split
  · rfl
  · next hnext =>
    rw [h] at hnext
    nomatch hnext

theorem items_of_some {lexer rest : Lexer} {item : Item} (h : lexer.next? = some (item, rest)) :
    lexer.items = item :: rest.items := by
  rw [items]
  split
  · next hnext =>
    rw [h] at hnext
    nomatch hnext
  · next hnext =>
    rw [h] at hnext
    injection hnext with hnext
    injection hnext with hitem hrest
    rw [hitem, hrest]

/-- A lexer answers with its items one by one, and then with nothing any more. -/
theorem answer_eq (lexer : Lexer) (n : Nat) : lexer.answer n = lexer.items[n]? := by
  induction n generalizing lexer with
  | zero =>
    rw [answer, ask]
    cases hnext : lexer.next? with
    | none => rw [items_of_none hnext, List.getElem?_nil]
    | some next => rw [items_of_some hnext, List.getElem?_cons_zero]
  | succ n ih =>
    rw [answer, ih, ask]
    cases hnext : lexer.next? with
    | none => rw [items_of_none hnext, List.getElem?_nil, List.getElem?_nil]
    | some next => rw [items_of_some hnext, List.getElem?_cons_succ]

end Lexer

/-- A source falls into pieces that are cut off as the lexical grammar says, each as long as it can be.
A lexer answers with the items of these pieces one by one, then with the end of the source, and then
with nothing any more. -/
theorem items_segmented (source : String) : ∃ pieces,
    Segmentation source pieces ∧
      itemsOf source = pieces.filterMap Piece.item? ++
        [.token (.eof (1 + source.toList.count '\n'))] ∧
      (∀ p ∈ pieces, p.content ≠ .kind .eof) ∧
      ∀ n, (Lexer.ofString source).answer n = (itemsOf source)[n]? :=
  ⟨piecesOf source, segmentation_piecesOf source, itemsOf_pieces source,
    fun _ hp => (cut_of_mem hp).ne_eof, Lexer.answer_eq _⟩

end Lox
