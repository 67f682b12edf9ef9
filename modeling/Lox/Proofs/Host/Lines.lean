import Lox.Host
import Lox.Text.Utf8
import Mathlib.Data.List.TakeDrop
import Mathlib.Data.List.TakeWhile

/-!
# The lines of an input

An input falls into lines, each with its end; only the last one may have none (`linesIn`). To take a line
is to take the first of them (`linesIn_of_takeLine`), and if the input is text, so are this line and the
rest (`IsText.takeLine`): no byte of a longer character is the end of a line.
-/

namespace Lox

/-- The end of a line. -/
def lineEnd : UInt8 := 10

/-- The lines of an input, each with its end if it has one. -/
def linesIn : List UInt8 → List (List UInt8)
  | [] => []
  | byte :: more =>
    if byte = lineEnd then [byte] :: linesIn more
    else match linesIn more with
      | [] => [[byte]]
      | line :: lines => (byte :: line) :: lines

/-- Nothing is lost between lines. -/
theorem flatten_linesIn (input : List UInt8) : (linesIn input).flatten = input := by
  induction input with
  | nil => rfl
  | cons byte more ih =>
    rw [linesIn]
    split
    · rw [List.flatten_cons, ih, List.singleton_append]
    · cases hlines : linesIn more with
      | nil =>
        rw [hlines] at ih
        rw [← ih]
        rfl
      | cons line lines =>
        rw [hlines] at ih
        rw [← ih]
        rfl

/-- Without an end of a line, there is one line at most. -/
theorem linesIn_body {body : List UInt8} (h : lineEnd ∉ body) (hne : body ≠ []) :
    linesIn body = [body] := by
  induction body with
  | nil => exact absurd rfl hne
  | cons byte more ih =>
    have hmore := List.not_mem_of_not_mem_cons h
    rw [linesIn, if_neg (Ne.symm (List.ne_of_not_mem_cons h))]
    cases more with
    | nil => rfl
    | cons next more => rw [ih hmore (List.cons_ne_nil _ _)]

/-- The first end of a line ends the first line. -/
theorem linesIn_line {body : List UInt8} (h : lineEnd ∉ body) (rest : List UInt8) :
    linesIn (body ++ lineEnd :: rest) = (body ++ [lineEnd]) :: linesIn rest := by
  induction body with
  | nil => rw [List.nil_append, linesIn, if_pos rfl, List.nil_append]
  | cons byte more ih =>
    have hmore := List.not_mem_of_not_mem_cons h
    rw [List.cons_append, linesIn, if_neg (Ne.symm (List.ne_of_not_mem_cons h)), ih hmore]
    rfl

/-! ## Taking a line -/

/-- The first line, and what is behind it: the line has an end, or there is nothing behind it. -/
inductive FirstLine : List UInt8 → List UInt8 → Prop
  | ended {body : List UInt8} (rest : List UInt8) : lineEnd ∉ body →
      FirstLine (body ++ [lineEnd]) rest
  | last {body : List UInt8} : lineEnd ∉ body → body ≠ [] → FirstLine body []

section

variable {input line rest : List UInt8}

theorem takeLine_nil : takeLine [] = none := rfl

/-- Where no line ends, all is taken. -/
theorem takeLine_last {byte : UInt8} {more : List UInt8}
    (h : (byte :: more).dropWhile (· != lineEnd) = []) :
    takeLine (byte :: more) = some (byte :: more, []) := by
  have whole := List.takeWhile_append_dropWhile (p := (· != lineEnd)) (l := byte :: more)
  rw [h, List.append_nil] at whole
  simp only [takeLine, show (10 : UInt8) = lineEnd from rfl, List.span_eq_takeWhile_dropWhile, h, whole]

/-- Where a line ends, all up to this end is taken. -/
theorem takeLine_ended {byte newline : UInt8} {more rest : List UInt8}
    (h : (byte :: more).dropWhile (· != lineEnd) = newline :: rest) :
    takeLine (byte :: more) = some ((byte :: more).takeWhile (· != lineEnd) ++ [newline], rest) := by
  simp only [takeLine, show (10 : UInt8) = lineEnd from rfl, List.span_eq_takeWhile_dropWhile, h]

theorem takeLine_eq_none : takeLine input = none ↔ input = [] := by
  cases input with
  | nil => exact ⟨fun _ => rfl, fun _ => rfl⟩
  | cons byte more =>
    refine iff_of_false (fun h => ?_) (List.cons_ne_nil _ _)
    cases hdrop : (byte :: more).dropWhile (· != lineEnd) with
    | nil => cases (takeLine_last hdrop).symm.trans h
    | cons newline rest => cases (takeLine_ended hdrop).symm.trans h

/-- What is taken from an input is its first line. -/
theorem firstLine_of_takeLine (h : takeLine input = some (line, rest)) :
    FirstLine line rest ∧ input = line ++ rest := by
  cases input with
  | nil => cases takeLine_nil.symm.trans h
  | cons byte more =>
    have whole := List.takeWhile_append_dropWhile (p := (· != lineEnd)) (l := byte :: more)
    have body : lineEnd ∉ (byte :: more).takeWhile (· != lineEnd) := fun hmem => by
      simpa using List.mem_takeWhile_imp hmem
    cases hdrop : (byte :: more).dropWhile (· != lineEnd) with
    | nil =>
      rw [hdrop, List.append_nil] at whole
      cases (takeLine_last hdrop).symm.trans h
      rw [whole] at body
      exact ⟨.last body (List.cons_ne_nil _ _), (List.append_nil _).symm⟩
    | cons newline more' =>
      have stop := List.head?_dropWhile_not (· != lineEnd) (byte :: more)
      cases (takeLine_ended hdrop).symm.trans h
      rw [hdrop] at whole stop
      obtain rfl : newline = lineEnd := by simpa using stop
      refine ⟨.ended _ body, ?_⟩
      rw [List.append_assoc, List.singleton_append, whole]

/-- A line that has an end is taken in front of anything, and one that has none if nothing follows. -/
theorem FirstLine.takeLine (h : FirstLine line rest) : takeLine (line ++ rest) = some (line, rest) := by
  cases h with
  | @ended body rest hbody =>
    have stays : ∀ byte ∈ body, (byte != lineEnd) = true := fun byte hbyte => by
      simpa using ne_of_mem_of_not_mem hbyte hbody
    have taken : (body ++ lineEnd :: rest).takeWhile (· != lineEnd) = body := by
      rw [List.takeWhile_append_of_pos stays, List.takeWhile_cons_of_neg (by simp), List.append_nil]
    have left : (body ++ lineEnd :: rest).dropWhile (· != lineEnd) = lineEnd :: rest := by
      rw [List.dropWhile_append_of_pos stays, List.dropWhile_cons_of_neg (by simp)]
    obtain ⟨byte, more, hwhole⟩ := List.exists_cons_of_ne_nil
      (List.append_ne_nil_of_right_ne_nil body (List.cons_ne_nil lineEnd rest))
    rw [hwhole] at taken left
    rw [List.append_assoc, List.singleton_append, hwhole, takeLine_ended left, taken]
  | last hbody hne =>
    have stays : ∀ byte ∈ line, (byte != lineEnd) = true := fun byte hbyte => by
      simpa using ne_of_mem_of_not_mem hbyte hbody
    obtain ⟨byte, more, rfl⟩ := List.exists_cons_of_ne_nil hne
    rw [List.append_nil, takeLine_last (List.dropWhile_eq_nil_iff.mpr stays)]

/-- To take a line is to take the first of the lines. -/
theorem linesIn_of_takeLine (h : takeLine input = some (line, rest)) :
    linesIn input = line :: linesIn rest := by
  obtain ⟨hfirst, rfl⟩ := firstLine_of_takeLine h
  cases hfirst with
  | ended rest hbody =>
    rw [List.append_assoc, List.singleton_append, linesIn_line hbody]
  | last hbody hne => rw [List.append_nil, linesIn_body hbody hne, linesIn]

theorem length_lt_of_takeLine (h : takeLine input = some (line, rest)) : rest.length < input.length := by
  obtain ⟨hfirst, rfl⟩ := firstLine_of_takeLine h
  rw [List.length_append]
  refine Nat.lt_add_of_pos_left (List.length_pos_iff.mpr ?_)
  cases hfirst with
  | ended => exact List.append_ne_nil_of_right_ne_nil _ (List.cons_ne_nil _ _)
  | last _ hne => exact hne

end

/-! ## Lines of text -/

namespace Utf8

/-- The bytes spell characters. -/
inductive IsText : List UInt8 → Prop
  | nil : IsText []
  | character {first : UInt8} {more rest : List UInt8} {code : Nat} :
      character first more = .done code rest → IsText rest → IsText (first :: more)

theorem decodeFrom_isText {index : Nat} {bytes : List UInt8} :
    (∃ chars, decodeFrom index bytes = .ok chars) ↔ IsText bytes := by
  fun_induction decodeFrom index bytes with
  | case1 => exact ⟨fun _ => .nil, fun _ => ⟨_, rfl⟩⟩
  | case2 index first more code rest hcharacter ih =>
    refine ⟨fun ⟨chars, hchars⟩ => .character hcharacter (ih.mp ?_), fun h => ?_⟩
    · cases hrest : decodeFrom (index + 1 + (more.length - rest.length)) rest with
      | error issue =>
        rw [hrest] at hchars
        cases hchars
      | ok chars => exact ⟨chars, rfl⟩
    · cases h with
      | character hcharacter' hrest =>
        rw [hcharacter] at hcharacter'
        cases hcharacter'
        obtain ⟨chars, hchars⟩ := ih.mpr hrest
        rw [hchars]
        exact ⟨_, rfl⟩
  | case3 index first more length hbroken =>
    constructor
    · rintro ⟨_, h⟩
      cases h
    · intro h
      cases h with
      | character hcharacter _ => cases hbroken.symm.trans hcharacter
  | case4 index first more hended =>
    constructor
    · rintro ⟨_, h⟩
      cases h
    · intro h
      cases h with
      | character hcharacter _ => cases hended.symm.trans hcharacter

/-- Bytes are text if they can be decoded. -/
theorem decode_isText {bytes : List UInt8} : (∃ text, decode bytes = .ok text) ↔ IsText bytes := by
  rw [← decodeFrom_isText, decode]
  cases decodeFrom 0 bytes with
  | error issue => constructor <;> rintro ⟨_, h⟩ <;> cases h
  | ok chars => exact ⟨fun _ => ⟨_, rfl⟩, fun _ => ⟨_, rfl⟩⟩

/-- The bytes behind the first one of a character are no ends of lines. -/
theorem continuation_line {code seen n result : Nat} {low high : UInt8} (hlow : lineEnd < low)
    {more after rest : List UInt8}
    (h : continuation code seen low high n (more ++ lineEnd :: after) = .done result rest) :
    ∃ more', more'.length ≤ more.length ∧ rest = more' ++ lineEnd :: after ∧
      ∀ after', continuation code seen low high n (more ++ lineEnd :: after') =
        .done result (more' ++ lineEnd :: after') := by
  induction n generalizing code seen low high more with
  | zero =>
    cases h
    exact ⟨more, Nat.le_refl _, rfl, fun _ => rfl⟩
  | succ n ih =>
    cases more with
    | nil =>
      rw [List.nil_append, continuation, if_neg] at h
      · cases h
      · rw [Bool.and_eq_true, decide_eq_true_eq]
        exact fun hle => absurd hle.1 (UInt8.not_le.mpr hlow)
    | cons byte more =>
      rw [List.cons_append, continuation] at h
      split at h
      · next hwithin =>
        obtain ⟨more', hlength, hrest, hany⟩ := ih (by decide) h
        refine ⟨more', Nat.le_succ_of_le hlength, hrest, fun after' => ?_⟩
        rw [List.cons_append, continuation, if_pos hwithin, hany]
      · cases h

theorem lineEnd_lt_low {first : UInt8} {lead : Lead} (h : lead? first = some lead) :
    lineEnd < lead.low := by
  unfold lead? at h
  repeat' split at h
  all_goals cases h
  all_goals decide

/-- No character goes over the end of a line. -/
theorem character_line {first : UInt8} {more after rest : List UInt8} {code : Nat}
    (h : character first (more ++ lineEnd :: after) = .done code rest) :
    ∃ more', more'.length ≤ more.length ∧ rest = more' ++ lineEnd :: after ∧
      ∀ after', character first (more ++ lineEnd :: after') = .done code (more' ++ lineEnd :: after') := by
  unfold character at h ⊢
  by_cases hshort : first < 0x80
  · rw [if_pos hshort] at h
    cases h
    exact ⟨more, Nat.le_refl _, rfl, fun _ => if_pos hshort⟩
  · simp only [if_neg hshort] at h ⊢
    cases hlead : lead? first with
    | none =>
      rw [hlead] at h
      cases h
    | some lead =>
      rw [hlead] at h
      exact continuation_line (lineEnd_lt_low hlead) h

/-- Text falls into text at the end of a line. -/
theorem IsText.line {body after : List UInt8} (h : IsText (body ++ lineEnd :: after)) :
    IsText (body ++ [lineEnd]) ∧ IsText after := by
  match body with
  | [] =>
    have alone (bytes : List UInt8) : Utf8.character lineEnd bytes = .done lineEnd.toNat bytes := rfl
    cases h with
    | character hcharacter hrest =>
      rw [alone] at hcharacter
      cases hcharacter
      exact ⟨.character (alone []) .nil, hrest⟩
  | first :: more =>
    cases h with
    | character hcharacter hrest =>
      obtain ⟨more', hlength, rfl, hany⟩ := character_line hcharacter
      obtain ⟨hline, hafter⟩ := IsText.line hrest
      exact ⟨.character (hany []) hline, hafter⟩
  termination_by body.length

/-- The first line of a text is text, and so is what is behind it. -/
theorem IsText.takeLine {input line rest : List UInt8} (h : IsText input)
    (htake : Lox.takeLine input = some (line, rest)) : IsText line ∧ IsText rest := by
  obtain ⟨hfirst, rfl⟩ := firstLine_of_takeLine htake
  cases hfirst with
  | ended rest hbody =>
    rw [List.append_assoc, List.singleton_append] at h
    exact h.line
  | last =>
    rw [List.append_nil] at h
    exact ⟨h, .nil⟩

end Utf8

end Lox
