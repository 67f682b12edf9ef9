import Lox.Token.Lexer
import Mathlib.Data.List.TakeWhile

/-!
# The lexical grammar

What a text is on its own says the grammar (`Lexical`): a blank, a comment, a mark or an operator, a
string, a number, a reserved word or a name. It leaves no choice (`Lexical.content_unique`).

A source starts with many texts of the grammar, and its first segment is the longest of them
(`length_le_segment`). There is none only if the first character starts no text at all, or if it is a
quote without a closing one (`segment_cut`).
-/

namespace Lox

open Segment

/-- At least one digit, and nothing else. -/
def Digits (cs : List Char) : Prop := cs ≠ [] ∧ ∀ c ∈ cs, c.isDigit

/-- What a text is on its own. -/
inductive Lexical : Content → List Char → Prop
  | blank {c : Char} : isBlank c → Lexical .blank [c]
  | comment {cs : List Char} : '\n' ∉ cs → Lexical .blank ('/' :: '/' :: cs)
  | symbol (mark : Symbol) : Lexical (.kind (.symbol mark)) mark.spelling.toList
  | string {contents : List Char} : '"' ∉ contents →
      Lexical (.kind (.string (String.ofList contents))) ('"' :: contents ++ ['"'])
  | whole {digits : List Char} : Digits digits → Lexical (number digits []) digits
  | fractional {whole fraction : List Char} : Digits whole → Digits fraction →
      Lexical (number whole fraction) (whole ++ '.' :: fraction)
  | keyword (word : Keyword) : Lexical (.kind (.keyword word)) word.spelling.toList
  | identifier {c : Char} {cs : List Char} : isNameStart c → (∀ d ∈ cs, isNamePart d) →
      (∀ word : Keyword, word.spelling.toList ≠ c :: cs) → Lexical (.kind .identifier) (c :: cs)

/-! ## Segments by their first characters -/

section

variable {c : Char} (cs : List Char)

theorem isNamePart_of_isDigit (h : c.isDigit) : isNamePart c := by
  simp [isNamePart, Char.isAlphanum, h]

theorem isNamePart_of_isNameStart (h : isNameStart c) : isNamePart c := by
  simp only [isNameStart, isNamePart, Char.isAlphanum, Bool.or_eq_true] at h ⊢
  exact h.imp_left .inl

theorem isDigit_of_isNameStart (h : isNameStart c) : c.isDigit = false := by
  rw [Bool.eq_false_iff]
  intro hdigit
  simp only [Char.isDigit, Bool.and_eq_true, decide_eq_true_eq] at hdigit
  change (decide ('A'.val ≤ c.val ∧ c.val ≤ 'Z'.val) ||
    (decide ('a'.val ≤ c.val) && decide (c.val ≤ 'z'.val)) || c == '_') = true at h
  simp only [Bool.or_eq_true, Bool.and_eq_true, decide_eq_true_eq, beq_iff_eq] at h
  rcases h with (h | h) | rfl
  · exact absurd (UInt32.le_trans h.1 hdigit.2) (by decide)
  · exact absurd (UInt32.le_trans h.1 hdigit.2) (by decide)
  · exact absurd hdigit.2 (by decide)

/-- What names go on with neither separates nor stands on its own. -/
theorem segment_namePart (h : isNamePart c) :
    segment c cs = if c.isDigit then numeral c cs else if isNameStart c then word c cs
      else ⟨.issue (.unexpectedCharacter c), [c], cs⟩ := by
  have other {d : Char} (hd : isNamePart d = false) : c ≠ d := by
    rintro rfl
    exact absurd (h.symm.trans hd) nofun
  have single : single? c = none := by
    unfold single?
    split <;> first | rfl | exact absurd rfl (other (by decide))
  have paired : paired? c = none := by
    unfold paired?
    split <;> first | rfl | exact absurd rfl (other (by decide))
  have blank : isBlank c = false := by
    simp only [isBlank, Bool.or_eq_false_iff, beq_eq_false_iff_ne]
    exact ⟨⟨⟨other rfl, other rfl⟩, other rfl⟩, other rfl⟩
  have slash : c ≠ '/' := other rfl
  have quote : c ≠ '"' := other rfl
  simp only [segment, single, paired, blank, slash, quote, if_false, Bool.false_eq_true]

/-- What starts with a digit is a number. -/
theorem segment_digit (h : c.isDigit) : segment c cs = numeral c cs := by
  rw [segment_namePart cs (isNamePart_of_isDigit h), if_pos h]

/-- What starts like a name is a word. -/
theorem segment_nameStart (h : isNameStart c) : segment c cs = word c cs := by
  rw [segment_namePart cs (isNamePart_of_isNameStart h), if_neg (by simp [isDigit_of_isNameStart h]),
    if_pos h]

end

/-! ## The segment is a text of the grammar -/

theorem spelling_single {c : Char} {mark : Symbol} (h : single? c = some mark) :
    mark.spelling.toList = [c] := by
  unfold single? at h
  split at h <;> cases h <;> decide

theorem spelling_paired {c : Char} {short long : Symbol} (h : paired? c = some (short, long)) :
    short.spelling.toList = [c] ∧ long.spelling.toList = [c, '='] := by
  unfold paired? at h
  split at h <;> cases h <;> decide

/-- How a segment is cut off in front of the rest of a source. -/
inductive Segment.Cut : Segment → Prop
  | lexeme {segment : Segment} : Lexical segment.content segment.text → segment.Cut
  | unexpected {c : Char} {cs : List Char} : (∀ content more, ¬Lexical content (c :: more)) →
      Segment.Cut ⟨.issue (.unexpectedCharacter c), [c], cs⟩
  | unterminated {cs : List Char} : '"' ∉ cs →
      Segment.Cut ⟨.issue .unterminatedString, '"' :: cs, []⟩

theorem operator_cut {c : Char} {short long : Symbol} (h : paired? c = some (short, long))
    (cs : List Char) : (operator c short long cs).Cut := by
  obtain ⟨hshort, hlong⟩ := spelling_paired h
  unfold operator
  split
  · exact .lexeme (hlong ▸ .symbol long)
  · exact .lexeme (hshort ▸ .symbol short)

theorem slash_cut (cs : List Char) : (slash cs).Cut := by
  unfold slash
  split
  · refine .lexeme (.comment fun hmem => ?_)
    simpa using List.mem_takeWhile_imp hmem
  · exact .lexeme (.symbol .slash)

theorem string_cut (cs : List Char) : (Segment.string cs).Cut := by
  have contents : '"' ∉ cs.takeWhile (· != '"') := fun hmem => by
    simpa using List.mem_takeWhile_imp hmem
  unfold Segment.string
  split
  · exact .unterminated contents
  · next quote rest hrest =>
    have stop := List.head?_dropWhile_not (· != '"') cs
    rw [hrest] at stop
    obtain rfl : quote = '"' := by simpa using stop
    exact .lexeme (.string contents)

theorem digits_cons {c : Char} (h : c.isDigit) (cs : List Char) :
    Digits (c :: cs.takeWhile Char.isDigit) :=
  ⟨List.cons_ne_nil _ _, List.forall_mem_cons.mpr ⟨h, fun _ => List.mem_takeWhile_imp⟩⟩

theorem numeral_cut {c : Char} (h : c.isDigit) (cs : List Char) : (numeral c cs).Cut := by
  have whole := digits_cons h cs
  unfold numeral
  split
  · next d more _ =>
    split
    · next hd => exact .lexeme (.fractional whole (digits_cons hd _))
    · exact .lexeme (.whole whole)
  · exact .lexeme (.whole whole)

theorem word_cut {c : Char} (h : isNameStart c) (cs : List Char) : (word c cs).Cut := by
  refine .lexeme ?_
  simp only [word, wordKind]
  split
  · next keyword hword =>
    have spelling := congrArg String.toList (Keyword.spelling_of_ofSpelling? hword)
    rw [String.toList_ofList] at spelling
    exact spelling ▸ .keyword keyword
  · next hword =>
    refine .identifier h (fun _ => List.mem_takeWhile_imp) fun keyword hkeyword => ?_
    rw [← hkeyword, String.ofList_toList, Keyword.ofSpelling?_spelling] at hword
    cases hword

/-- Reserved words look like names. -/
theorem spelling_keyword (word : Keyword) :
    ∃ c cs, word.spelling.toList = c :: cs ∧ isNameStart c ∧ ∀ d ∈ cs, isNamePart d := by
  cases word <;> exact ⟨_, _, rfl, rfl, List.all_eq_true.mp rfl⟩

theorem spelling_symbol (mark : Symbol) :
    mark = .slash ∨ (∃ c, mark.spelling.toList = [c] ∧ single? c = some mark) ∨
      ∃ c short long, paired? c = some (short, long) ∧
        (mark = short ∧ mark.spelling.toList = [c] ∨ mark = long ∧ mark.spelling.toList = [c, '=']) := by
  cases mark with
  | slash => exact .inl rfl
  | bang | equal | less | greater => exact .inr (.inr ⟨_, _, _, rfl, .inl ⟨rfl, rfl⟩⟩)
  | bangEqual | equalEqual | lessEqual | greaterEqual =>
    exact .inr (.inr ⟨_, _, _, rfl, .inr ⟨rfl, rfl⟩⟩)
  | _ => exact .inr (.inl ⟨_, rfl, rfl⟩)

/-! ## No text of the grammar is longer -/

theorem Lexical.ne_nil {content : Content} {text : List Char} (h : Lexical content text) :
    text ≠ [] := by
  cases h with
  | symbol mark => cases mark <;> decide
  | keyword word => cases word <;> decide
  | whole hdigits => exact hdigits.1
  | fractional => exact List.append_ne_nil_of_right_ne_nil _ (List.cons_ne_nil _ _)
  | _ => exact List.cons_ne_nil _ _

/-- The segment is at least as long as a text with which the source starts, and it is the same if
nothing else follows. -/
structure Segment.Covers (segment : Segment) (content : Content) (text rest : List Char) : Prop where
  longer : text.length ≤ segment.text.length
  expected : ∀ c, segment.content ≠ .issue (.unexpectedCharacter c)
  same : rest = [] → segment.content = content

section

variable {c : Char} {cs : List Char} (rest : List Char)

theorem segment_blank (h : isBlank c) : segment c rest = ⟨.blank, [c], rest⟩ := by
  simp only [isBlank, Bool.or_eq_true, beq_iff_eq] at h
  rcases h with ((rfl | rfl) | rfl) | rfl <;> rfl

theorem covers_comment (h : '\n' ∉ cs) :
    (slash ('/' :: (cs ++ rest))).Covers .blank ('/' :: '/' :: cs) rest := by
  have all : ∀ c ∈ cs, (c != '\n') = true := fun c hc => by
    simpa using ne_of_mem_of_not_mem hc h
  refine ⟨?_, nofun, fun _ => rfl⟩
  simp [slash, List.takeWhile_append_of_pos all]

theorem covers_slash : (slash rest).Covers (.kind (.symbol .slash)) ['/'] rest := by
  unfold slash
  split
  · exact ⟨by simp, nofun, nofun⟩
  · exact ⟨Nat.le_refl _, nofun, fun _ => rfl⟩

theorem covers_single {mark : Symbol} (h : single? c = some mark) :
    (segment c rest).Covers (.kind (.symbol mark)) [c] rest := by
  simp only [segment, h]
  exact ⟨Nat.le_refl _, nofun, fun _ => rfl⟩

theorem segment_paired {short long : Symbol} (h : paired? c = some (short, long)) :
    segment c rest = operator c short long rest := by
  have single : single? c = none := by
    unfold paired? at h
    split at h <;> first | rfl | nomatch h
  simp only [segment, single, h]

theorem covers_short (short long : Symbol) :
    (operator c short long rest).Covers (.kind (.symbol short)) [c] rest := by
  unfold operator
  split
  · exact ⟨by simp, nofun, nofun⟩
  · exact ⟨Nat.le_refl _, nofun, fun _ => rfl⟩

theorem covers_symbol (mark : Symbol) (h : mark.spelling.toList = c :: cs) :
    (segment c (cs ++ rest)).Covers (.kind (.symbol mark)) (c :: cs) rest := by
  rcases spelling_symbol mark with rfl | ⟨d, hd, hsingle⟩ | ⟨d, short, long, hpaired, hmark⟩
  · injection h with hc hcs
    subst hc hcs
    exact covers_slash rest
  · rw [hd] at h
    injection h with hc hcs
    subst hc hcs
    exact covers_single rest hsingle
  · rcases hmark with ⟨rfl, hd⟩ | ⟨rfl, hd⟩
    · rw [hd] at h
      injection h with hc hcs
      subst hc hcs
      rw [segment_paired _ hpaired]
      exact covers_short rest _ _
    · rw [hd] at h
      injection h with hc hcs
      subst hc hcs
      rw [segment_paired _ hpaired]
      exact ⟨Nat.le_refl _, nofun, fun _ => rfl⟩

theorem covers_string {contents : List Char} (h : '"' ∉ contents) :
    (Segment.string (contents ++ '"' :: rest)).Covers (.kind (.string (String.ofList contents)))
      ('"' :: contents ++ ['"']) rest := by
  have all : ∀ c ∈ contents, (c != '"') = true := fun c hc => by
    simpa using ne_of_mem_of_not_mem hc h
  simp only [Segment.string, List.takeWhile_append_of_pos all, List.dropWhile_append_of_pos all,
    List.takeWhile_cons, List.dropWhile_cons, bne_self_eq_false, Bool.false_eq_true, if_false,
    List.append_nil]
  exact ⟨Nat.le_refl _, nofun, fun _ => rfl⟩

theorem covers_whole (h : ∀ d ∈ cs, d.isDigit) :
    (numeral c (cs ++ rest)).Covers (number (c :: cs) []) (c :: cs) rest := by
  simp only [numeral, List.takeWhile_append_of_pos h, List.dropWhile_append_of_pos h]
  split
  · split
    · refine ⟨by simp, nofun, ?_⟩
      rintro rfl
      contradiction
    · refine ⟨by simp, nofun, ?_⟩
      rintro rfl
      contradiction
  · refine ⟨by simp, nofun, ?_⟩
    rintro rfl
    simp

theorem covers_fractional {whole fraction : List Char} {d : Char} (hwhole : ∀ e ∈ whole, e.isDigit)
    (hd : d.isDigit) (hfraction : ∀ e ∈ fraction, e.isDigit) :
    (numeral c (whole ++ '.' :: d :: fraction ++ rest)).Covers (number (c :: whole) (d :: fraction))
      (c :: whole ++ '.' :: d :: fraction) rest := by
  have point : ('.' : Char).isDigit = false := rfl
  simp only [numeral, List.append_assoc, List.takeWhile_append_of_pos hwhole,
    List.dropWhile_append_of_pos hwhole, List.cons_append, List.takeWhile_cons, List.dropWhile_cons, point, hd,
    List.takeWhile_append_of_pos hfraction, if_true, Bool.false_eq_true, if_false]
  refine ⟨by simp, nofun, ?_⟩
  rintro rfl
  simp

theorem covers_word (h : ∀ d ∈ cs, isNamePart d) {kind : TokenKind}
    (hkind : wordKind (String.ofList (c :: cs)) = kind) :
    (word c (cs ++ rest)).Covers (.kind kind) (c :: cs) rest := by
  simp only [word, List.takeWhile_append_of_pos h]
  refine ⟨by simp, by rintro _ ⟨⟩, ?_⟩
  rintro rfl
  rw [List.takeWhile_nil, List.append_nil, hkind]

end

/-- No text of the grammar with which a source starts is longer than its first segment. -/
theorem segment_covers {content : Content} {c : Char} {cs : List Char} (h : Lexical content (c :: cs))
    (rest : List Char) : (segment c (cs ++ rest)).Covers content (c :: cs) rest := by
  generalize htext : c :: cs = text at h
  cases h with
  | blank hblank =>
    injection htext with hc hcs
    subst hc hcs
    rw [segment_blank _ hblank]
    exact ⟨Nat.le_refl _, nofun, fun _ => rfl⟩
  | comment hcs =>
    injection htext with hc hcs
    subst hc hcs
    exact covers_comment rest ‹_›
  | symbol mark => exact htext ▸ covers_symbol rest mark htext.symm
  | string hcontents =>
    injection htext with hc hcs
    subst hc hcs
    have covers := covers_string rest hcontents
    rwa [← List.singleton_append, ← List.append_assoc] at covers
  | whole hdigits =>
    subst htext
    obtain ⟨hc, hcs⟩ := List.forall_mem_cons.mp hdigits.2
    rw [segment_digit _ hc]
    exact covers_whole rest hcs
  | @fractional whole fraction hwhole hfraction =>
    obtain ⟨w, ws, rfl⟩ := List.exists_cons_of_ne_nil hwhole.1
    obtain ⟨d, ds, rfl⟩ := List.exists_cons_of_ne_nil hfraction.1
    injection htext with hc hcs
    subst hc hcs
    obtain ⟨hc, hcs⟩ := List.forall_mem_cons.mp hwhole.2
    obtain ⟨hd, hds⟩ := List.forall_mem_cons.mp hfraction.2
    rw [segment_digit _ hc]
    exact covers_fractional rest hcs hd hds
  | keyword word =>
    obtain ⟨d, ds, hword, hd, hds⟩ := spelling_keyword word
    rw [hword] at htext ⊢
    injection htext with hc hcs
    subst hc hcs
    rw [segment_nameStart _ hd]
    refine covers_word rest hds ?_
    rw [← hword, String.ofList_toList, wordKind, Keyword.ofSpelling?_spelling]
  | identifier hc hcs hword =>
    injection htext with hc hcs
    subst hc hcs
    rw [segment_nameStart _ ‹_›]
    refine covers_word rest ‹_› ?_
    unfold wordKind
    split
    · next keyword hkeyword =>
      have spelling := congrArg String.toList (Keyword.spelling_of_ofSpelling? hkeyword)
      rw [String.toList_ofList] at spelling
      exact absurd spelling (hword keyword)
    · rfl

/-- The segment in front of the rest of a source is cut off as the grammar says. -/
theorem segment_cut (c : Char) (cs : List Char) : (segment c cs).Cut := by
  unfold segment
  split
  · next h => exact .lexeme (spelling_single h ▸ .symbol _)
  · next h => exact operator_cut h cs
  · next hsingle hpaired =>
    split
    · next h => exact .lexeme (.blank h)
    split
    · exact slash_cut cs
    split
    · exact string_cut cs
    split
    · next h => exact numeral_cut h cs
    split
    · next h => exact word_cut h cs
    · next hblank hslash hquote hdigit hname =>
      -- a text of the grammar would not have been unexpected
      refine .unexpected fun content more hlexical => ?_
      refine (segment_covers hlexical []).expected c ?_
      simp only [segment, hsingle, hpaired, hblank, hslash, hquote, hdigit, hname, if_false,
        Bool.false_eq_true]

/-- A text of the grammar is one thing only. -/
theorem Lexical.content_unique {content content' : Content} {text : List Char}
    (h : Lexical content text) (h' : Lexical content' text) : content = content' := by
  cases text with
  | nil => exact absurd rfl h.ne_nil
  | cons c cs => rw [← (segment_covers h []).same rfl, (segment_covers h' []).same rfl]

/-- The first segment of a source is the longest text of the grammar with which the source starts. -/
theorem length_le_segment {content : Content} {c : Char} {cs text : List Char}
    (h : Lexical content text) (hbegins : text <+: c :: cs) :
    text.length ≤ (segment c cs).text.length := by
  obtain ⟨rest, hrest⟩ := hbegins
  cases text with
  | nil => exact Nat.zero_le _
  | cons d ds =>
    injection hrest with hc hcs
    subst hc hcs
    exact (segment_covers h rest).longer

end Lox
