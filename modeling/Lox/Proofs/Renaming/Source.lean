import Lox.Proofs.Renaming.Reading
import Lox.Proofs.Token.Joining

/-!
# Sources with other names

Where the text of a name is replaced, the segments around it are cut as before: a name ends in front of
what is no part of a name, and what looks at the start of the next segment takes all names alike. So
tokens with another name in place of some names are the tokens of a source (`exists_sourceRespelt`).
-/

namespace Lox

open Segment

/-! ## The start of what follows -/

/-- What stops at the end of a list, whatever comes behind it. -/
theorem span_of_all {α : Type} {test : α → Bool} {cs : List α} (hall : ∀ c ∈ cs, test c = true)
    (rest : List α) (hstop : ∀ c ∈ rest.head?, test c = false) :
    (cs ++ rest).takeWhile test = cs ∧ (cs ++ rest).dropWhile test = rest := by
  obtain ⟨htake, hdrop⟩ := span_append test cs rest (.inr hstop)
  rw [htake, hdrop, List.takeWhile_eq_self_iff.mpr hall, List.dropWhile_eq_nil_iff.mpr hall]
  exact ⟨rfl, rfl⟩

theorem all_takeWhile {α : Type} (test : α → Bool) (cs : List α) :
    ∀ c ∈ cs.takeWhile test, test c = true :=
  fun _ hc => List.mem_takeWhile_imp hc

theorem stops_dropWhile {α : Type} (test : α → Bool) (cs : List α) :
    ∀ c ∈ (cs.dropWhile test).head?, test c = false := by
  intro c hc
  have stop := List.head?_dropWhile_not test cs
  rw [hc] at stop
  simpa using stop

/-- A test that takes all names alike. -/
def BlindToNames (test : Char → Bool) : Prop :=
  ∃ answer, ∀ c, isNameStart c → test c = answer

theorem isNameStart_of_identifier {c : Char} {cs : List Char}
    (h : (segment c cs).content = .kind .identifier) : isNameStart c := by
  have cut := segment_cut c cs
  have start := head?_segment_text c cs
  generalize segment c cs = seg at h cut start
  obtain ⟨content, text, rest⟩ := seg
  cases h
  cases cut with
  | lexeme hlexical =>
    generalize hcontent : Content.kind .identifier = content at hlexical
    dsimp only at hlexical start
    cases hlexical with
    | identifier hc _ _ =>
      obtain rfl := Option.some.inj start
      exact hc
    | _ => nomatch hcontent

section

variable {new : String} {cs cs' : List Char}

theorem Lexical.new_cons (hnew : Lexical (.kind .identifier) new.toList) :
    ∃ c cs, new.toList = c :: cs ∧ isNameStart c ∧ ∀ d ∈ cs, isNamePart d := by
  generalize new.toList = text at hnew
  generalize hcontent : Content.kind .identifier = content at hnew
  cases hnew with
  | @identifier c cs hc hcs _ => exact ⟨c, cs, rfl, hc, hcs⟩
  | _ => nomatch hcontent

/-- Texts whose names are replaced start alike. -/
theorem TextRespelt.stops (hnew : Lexical (.kind .identifier) new.toList)
    (h : TextRespelt new cs cs') {test : Char → Bool} (htest : BlindToNames test)
    (hstop : ∀ c ∈ cs.head?, test c = false) : ∀ c ∈ cs'.head?, test c = false := by
  cases h with
  | nil => exact hstop
  | @same c cs rest' _ =>
    intro d hd
    have start := head?_segment_text c cs
    rw [List.head?_append, start, Option.some_or] at hd
    exact hstop d hd
  | @called c cs rest' hcontent _ =>
    obtain ⟨d, ds, htext, hd, -⟩ := hnew.new_cons
    obtain ⟨answer, hanswer⟩ := htest
    rw [htext]
    rintro _ ⟨⟩
    rw [hanswer d hd, ← hanswer c (isNameStart_of_identifier hcontent)]
    exact hstop c rfl

/-- A point is no part of a name. -/
theorem TextRespelt.of_point (hnew : Lexical (.kind .identifier) new.toList)
    (h : TextRespelt new cs ('.' :: cs')) : ∃ more, cs = '.' :: more ∧ TextRespelt new more cs' := by
  generalize htext : '.' :: cs' = text at h
  cases h with
  | nil => nomatch htext
  | @same c more rest' hrest =>
    obtain rfl : '.' = c := by
      have start := congrArg List.head? htext
      rw [List.head?_append, head?_segment_text, Option.some_or] at start
      exact Option.some.inj start
    obtain rfl : cs' = rest' := List.tail_eq_of_cons_eq htext
    exact ⟨more, rfl, hrest⟩
  | called hcontent _ =>
    obtain ⟨d, ds, hd, hstart, -⟩ := hnew.new_cons
    rw [hd] at htext
    obtain rfl := List.head_eq_of_cons_eq htext
    nomatch hstart

theorem blind_of_ne {other : Char} (h : isNamePart other = false) : BlindToNames (· == other) := by
  refine ⟨false, fun c hc => beq_eq_false_iff_ne.mpr ?_⟩
  rintro rfl
  exact absurd (isNamePart_of_isNameStart hc) (h ▸ nofun)

theorem blind_isDigit : BlindToNames Char.isDigit := ⟨false, fun _ => isDigit_of_isNameStart⟩

theorem blind_isNamePart : BlindToNames isNamePart := ⟨true, fun _ => isNamePart_of_isNameStart⟩

theorem blind_line : BlindToNames (· != '\n') := by
  refine ⟨true, fun c hc => bne_iff_ne.mpr ?_⟩
  rintro rfl
  exact absurd (isNamePart_of_isNameStart hc) nofun

end

/-! ## Segments in front of what follows -/

/-- The segment in front of something else. -/
def Segment.onto (segment : Segment) (rest : List Char) : Segment := { segment with rest := rest }

/-- A number without a fraction, in front of anything that does not go on with it. -/
theorem numeral_whole {c : Char} {digits rest : List Char} (hdigits : ∀ d ∈ digits, d.isDigit = true)
    (hstop : ∀ d ∈ rest.head?, d.isDigit = false)
    (hpoint : ∀ d more, rest = '.' :: d :: more → d.isDigit = false) :
    numeral c (digits ++ rest) = ⟨number (c :: digits) [], c :: digits, rest⟩ := by
  obtain ⟨htake, hdrop⟩ := span_of_all hdigits _ hstop
  simp only [numeral, htake, hdrop]
  split
  · next d more =>
    rw [if_neg (Bool.eq_false_iff.mp (hpoint d more rfl))]
  · rfl

/-- A number with a fraction, in front of anything but a digit. -/
theorem numeral_fractional {c d : Char} {digits fraction rest : List Char}
    (hdigits : ∀ d ∈ digits, d.isDigit = true) (hd : d.isDigit = true)
    (hfraction : ∀ d ∈ fraction, d.isDigit = true) (hstop : ∀ d ∈ rest.head?, d.isDigit = false) :
    numeral c (digits ++ '.' :: d :: (fraction ++ rest)) =
      ⟨number (c :: digits) (d :: fraction), c :: digits ++ '.' :: d :: fraction, rest⟩ := by
  have point : ∀ e ∈ ('.' :: d :: (fraction ++ rest)).head?, e.isDigit = false := by
    rintro _ ⟨⟩
    rfl
  obtain ⟨htake, hdrop⟩ := span_of_all hdigits _ point
  obtain ⟨htake', hdrop'⟩ := span_of_all hfraction _ hstop
  simp only [numeral, htake, hdrop, if_pos hd, htake', hdrop']

section

variable {new : String} (hnew : Lexical (.kind .identifier) new.toList) {rest' : List Char}
include hnew

theorem operator_onto (c : Char) (short long : Symbol) (cs : List Char)
    (h : TextRespelt new (operator c short long cs).rest rest') :
    operator c short long ((operator c short long cs).text.tail ++ rest') =
      (operator c short long cs).onto rest' := by
  by_cases hequal : ∃ more, cs = '=' :: more
  · obtain ⟨more, rfl⟩ := hequal
    rfl
  · have alone {cs : List Char} (hcs : ∀ c ∈ cs.head?, (c == '=') = false) :
        operator c short long cs = ⟨.kind (.symbol short), [c], cs⟩ := by
      unfold operator
      split
      · exact absurd (hcs _ rfl) (by decide)
      · rfl
    have stop : ∀ c ∈ cs.head?, (c == '=') = false := by
      intro c hc
      refine beq_eq_false_iff_ne.mpr ?_
      rintro rfl
      exact hequal ⟨_, (List.cons_head?_tail hc).symm⟩
    rw [alone stop] at h ⊢
    exact alone (h.stops hnew (blind_of_ne rfl) stop)

theorem slash_onto (cs : List Char) (h : TextRespelt new (slash cs).rest rest') :
    slash ((slash cs).text.tail ++ rest') = (slash cs).onto rest' := by
  by_cases hslash : ∃ more, cs = '/' :: more
  · obtain ⟨more, rfl⟩ := hslash
    have stop := h.stops hnew blind_line (stops_dropWhile _ more)
    obtain ⟨htake, hdrop⟩ := span_of_all (all_takeWhile (· != '\n') more) _ stop
    show slash ('/' :: (more.takeWhile (· != '\n') ++ rest')) = _
    simp only [slash, htake, hdrop, onto]
  · have alone {cs : List Char} (hcs : ∀ c ∈ cs.head?, (c == '/') = false) :
        slash cs = ⟨.kind (.symbol .slash), ['/'], cs⟩ := by
      unfold slash
      split
      · exact absurd (hcs _ rfl) (by decide)
      · rfl
    have stop : ∀ c ∈ cs.head?, (c == '/') = false := by
      intro c hc
      refine beq_eq_false_iff_ne.mpr ?_
      rintro rfl
      exact hslash ⟨_, (List.cons_head?_tail hc).symm⟩
    rw [alone stop] at h ⊢
    exact alone (h.stops hnew (blind_of_ne rfl) stop)

omit hnew in
theorem string_onto (cs : List Char) (h : TextRespelt new (Segment.string cs).rest rest') :
    Segment.string ((Segment.string cs).text.tail ++ rest') = (Segment.string cs).onto rest' := by
  have all := all_takeWhile (· != '"') cs
  cases hrest : cs.dropWhile (· != '"') with
  | nil =>
    have unfinished : Segment.string cs =
        ⟨.issue .unterminatedString, '"' :: cs.takeWhile (· != '"'), []⟩ := by
      simp only [Segment.string, hrest]
    rw [unfinished] at h ⊢
    cases h
    obtain ⟨htake, hdrop⟩ := span_of_all all [] (by rintro _ ⟨⟩)
    simp only [List.tail_cons, Segment.string, htake, hdrop, onto]
  | cons quote more =>
    have stop := stops_dropWhile (· != '"') cs
    rw [hrest] at stop
    obtain rfl : quote = '"' := by simpa using stop
    have whole : Segment.string cs = ⟨.kind (.string (String.ofList (cs.takeWhile (· != '"')))),
        '"' :: cs.takeWhile (· != '"') ++ ['"'], more⟩ := by
      simp only [Segment.string, hrest]
    rw [whole]
    obtain ⟨htake, hdrop⟩ := span_of_all all ('"' :: rest') (by simp)
    simp only [List.cons_append, List.tail_cons, List.append_assoc, List.nil_append,
      Segment.string, htake, hdrop, onto]

theorem word_onto (c : Char) (cs : List Char) (h : TextRespelt new (word c cs).rest rest') :
    word c ((word c cs).text.tail ++ rest') = (word c cs).onto rest' := by
  have stop := h.stops hnew blind_isNamePart (stops_dropWhile _ cs)
  obtain ⟨htake, hdrop⟩ := span_of_all (all_takeWhile isNamePart cs) _ stop
  simp only [word, List.tail_cons, htake, hdrop, onto]

/-- A point that is no part of a number is followed by what it was followed by. -/
theorem numeral_onto (c : Char) (cs : List Char)
    (h : TextRespelt new (numeral c cs).rest rest') :
    numeral c ((numeral c cs).text.tail ++ rest') = (numeral c cs).onto rest' := by
  have all := all_takeWhile Char.isDigit cs
  have stop := stops_dropWhile Char.isDigit cs
  have parts := List.takeWhile_append_dropWhile (p := Char.isDigit) (l := cs)
  generalize cs.takeWhile Char.isDigit = digits at all parts
  generalize cs.dropWhile Char.isDigit = rest at stop parts
  subst parts
  by_cases hpoint : ∃ d more, rest = '.' :: d :: more ∧ d.isDigit = true
  · obtain ⟨d, more, rfl, hd⟩ := hpoint
    have more' := List.takeWhile_append_dropWhile (p := Char.isDigit) (l := more)
    rw [← more', numeral_fractional all hd (all_takeWhile _ more) (stops_dropWhile _ more)] at h ⊢
    have stop' := h.stops hnew blind_isDigit (stops_dropWhile _ more)
    simp only [List.cons_append, List.tail_cons, List.append_assoc]
    exact numeral_fractional all hd (all_takeWhile _ more) stop'
  · have point : ∀ d more, rest = '.' :: d :: more → d.isDigit = false := by
      intro d more hrest
      exact Bool.eq_false_iff.mpr fun hd => hpoint ⟨d, more, hrest, hd⟩
    rw [numeral_whole all stop point] at h ⊢
    have stop' := h.stops hnew blind_isDigit stop
    refine numeral_whole all stop' ?_
    rintro d more rfl
    obtain ⟨cs, rfl, hcs⟩ := h.of_point hnew
    refine hcs.stops hnew blind_isDigit ?_ d rfl
    intro e he
    exact point e cs.tail (congrArg _ (List.cons_head?_tail he).symm)

/-- A segment stays in front of a text whose names are replaced. -/
theorem segment_onto (c : Char) (cs : List Char) (h : TextRespelt new (segment c cs).rest rest') :
    segment c ((segment c cs).text.tail ++ rest') = (segment c cs).onto rest' := by
  revert h
  unfold segment
  split
  · exact fun _ => rfl
  · exact operator_onto hnew c _ _ cs
  · split
    · exact fun _ => rfl
    split
    · exact slash_onto hnew cs
    split
    · exact string_onto cs
    split
    · exact numeral_onto hnew c cs
    split
    · exact word_onto hnew c cs
    · exact fun _ => rfl

/-- The new name is a segment in front of what does not go on with it. -/
theorem segment_new (hstop : ∀ c ∈ rest'.head?, isNamePart c = false) :
    ∃ c cs, new.toList = c :: cs ∧
      segment c (cs ++ rest') = ⟨.kind .identifier, new.toList, rest'⟩ := by
  obtain ⟨c, cs, htext, hc, hcs⟩ := hnew.new_cons
  have covers := segment_covers (htext ▸ hnew) []
  have content := covers.same rfl
  rw [segment_nameStart _ hc, List.append_nil] at content
  obtain ⟨htake, hdrop⟩ := span_of_all hcs _ hstop
  have alone : cs.takeWhile isNamePart = cs := List.takeWhile_eq_self_iff.mpr hcs
  refine ⟨c, cs, htext, ?_⟩
  rw [segment_nameStart _ hc, htext]
  simp only [word, alone] at content
  simp only [word, htake, hdrop, content]

end

/-- Behind a name stands nothing that could be a part of it. -/
theorem stops_identifier {c : Char} {cs : List Char}
    (h : (segment c cs).content = .kind .identifier) :
    ∀ d ∈ (segment c cs).rest.head?, isNamePart d = false := by
  rw [segment_nameStart cs (isNameStart_of_identifier h)]
  exact stops_dropWhile isNamePart cs

/-! ## Lines -/

theorem count_line {cs : List Char} (h : ∀ c ∈ cs, isNamePart c = true) : cs.count '\n' = 0 := by
  refine List.count_eq_zero.mpr fun hmem => ?_
  exact absurd (h _ hmem) nofun

theorem count_line_identifier {c : Char} {cs : List Char}
    (h : (segment c cs).content = .kind .identifier) : (segment c cs).text.count '\n' = 0 := by
  have start := isNameStart_of_identifier h
  rw [segment_nameStart cs start]
  exact count_line (List.forall_mem_cons.mpr
    ⟨isNamePart_of_isNameStart start, all_takeWhile isNamePart cs⟩)

theorem count_line_new {new : String} (hnew : Lexical (.kind .identifier) new.toList) :
    new.toList.count '\n' = 0 := by
  obtain ⟨c, cs, htext, hc, hcs⟩ := hnew.new_cons
  rw [htext]
  exact count_line (List.forall_mem_cons.mpr ⟨isNamePart_of_isNameStart hc, hcs⟩)

/-! ## Tokens -/

namespace Lexer

/-- The tokens of a source in front of its end, from a line on. -/
def tokensFrom (line : Nat) (cs : List Char) : List Token := (wordsFrom line cs).filterMap Item.token?

/-- What is wrong with the characters of a source, from a line on. -/
def issuesFrom (line : Nat) (cs : List Char) : List Diagnostic :=
  (wordsFrom line cs).filterMap Item.diagnostic?

theorem tokensFrom_cons (line : Nat) (c : Char) (cs : List Char) :
    tokensFrom line (c :: cs) =
      (((segment c cs).item? (line + (segment c cs).text.count '\n')).toList.filterMap Item.token?) ++
        tokensFrom (line + (segment c cs).text.count '\n') (segment c cs).rest := by
  rw [tokensFrom, wordsFrom_cons, List.filterMap_append]
  rfl

theorem issuesFrom_cons (line : Nat) (c : Char) (cs : List Char) :
    issuesFrom line (c :: cs) =
      (((segment c cs).item? (line + (segment c cs).text.count '\n')).toList.filterMap
        Item.diagnostic?) ++
        issuesFrom (line + (segment c cs).text.count '\n') (segment c cs).rest := by
  rw [issuesFrom, wordsFrom_cons, List.filterMap_append]
  rfl

end Lexer

open Lexer

section

variable {new : String} (hnew : Lexical (.kind .identifier) new.toList)
include hnew

/-- The first segment stays, whatever is done to names behind it. -/
theorem segment_same (line : Nat) (c : Char) {cs rest' : List Char}
    (h : TextRespelt new (segment c cs).rest rest') :
    tokensFrom line ((segment c cs).text ++ rest') =
        ((segment c cs).item? (line + (segment c cs).text.count '\n')).toList.filterMap
          Item.token? ++ tokensFrom (line + (segment c cs).text.count '\n') rest' ∧
      issuesFrom line ((segment c cs).text ++ rest') =
        ((segment c cs).item? (line + (segment c cs).text.count '\n')).toList.filterMap
          Item.diagnostic? ++ issuesFrom (line + (segment c cs).text.count '\n') rest' := by
  have text := List.cons_head?_tail (head?_segment_text c cs)
  have whole : (segment c cs).text ++ rest' = c :: ((segment c cs).text.tail ++ rest') :=
    congrArg (· ++ rest') text.symm
  rw [whole, tokensFrom_cons, issuesFrom_cons, segment_onto hnew c cs h]
  exact ⟨rfl, rfl⟩

/-- The first segment is a name, and another name stands there instead. -/
theorem segment_called (line : Nat) (c : Char) {cs rest' : List Char}
    (hcontent : (segment c cs).content = .kind .identifier)
    (h : TextRespelt new (segment c cs).rest rest') :
    tokensFrom line (new.toList ++ rest') = ⟨.identifier, new, line⟩ :: tokensFrom line rest' ∧
      issuesFrom line (new.toList ++ rest') = issuesFrom line rest' := by
  obtain ⟨d, ds, htext, hsegment⟩ :=
    segment_new hnew (h.stops hnew blind_isNamePart (stops_identifier hcontent))
  have count := count_line_new hnew
  have whole : new.toList ++ rest' = d :: (ds ++ rest') := by rw [htext, List.cons_append]
  rw [whole, tokensFrom_cons, issuesFrom_cons, hsegment, count]
  refine ⟨?_, rfl⟩
  rw [Segment.item?, String.ofList_toList]
  rfl

/-- Tokens with another name in place of some names are the tokens of a text. -/
theorem exists_textRespelt (line : Nat) (cs : List Char) {ts' : List Token}
    (h : Retold new (tokensFrom line cs) ts') :
    ∃ cs', TextRespelt new cs cs' ∧ tokensFrom line cs' = ts' ∧
      issuesFrom line cs' = issuesFrom line cs := by
  match cs with
  | [] =>
    rw [tokensFrom, wordsFrom_nil] at h
    cases h
    exact ⟨[], .nil, by rw [tokensFrom, wordsFrom_nil]; rfl, rfl⟩
  | c :: more =>
    rw [tokensFrom_cons] at h
    rw [issuesFrom_cons]
    -- what comes first stays, if the token that it may be does
    have same {us' : List Token}
        (hrest : Retold new
          (tokensFrom (line + (segment c more).text.count '\n') (segment c more).rest) us')
        (hts : ts' = ((segment c more).item? (line + (segment c more).text.count '\n')).toList.filterMap
          Item.token? ++ us') :
        ∃ cs', TextRespelt new (c :: more) cs' ∧ tokensFrom line cs' = ts' ∧
          issuesFrom line cs' =
            ((segment c more).item? (line + (segment c more).text.count '\n')).toList.filterMap
              Item.diagnostic? ++
              issuesFrom (line + (segment c more).text.count '\n') (segment c more).rest := by
      obtain ⟨rest', hrespelt, htokens, hissues⟩ := exists_textRespelt _ _ hrest
      obtain ⟨tokens, issues⟩ := segment_same hnew line c hrespelt
      exact ⟨_, .same hrespelt, by rw [tokens, htokens, hts], by rw [issues, hissues]⟩
    cases hcontent : (segment c more).content with
    | blank =>
      simp only [Segment.item?, hcontent] at h same ⊢
      exact same h rfl
    | issue cause =>
      simp only [Segment.item?, hcontent] at h same ⊢
      exact same h rfl
    | kind kind =>
      simp only [Segment.item?, hcontent] at h same ⊢
      cases h with
      | @cons _ t' _ us' hfirst hrest =>
        cases hfirst with
        | same => exact same hrest rfl
        | called hkind =>
          obtain rfl : kind = .identifier := hkind
          have count := count_line_identifier hcontent
          obtain ⟨rest', hrespelt, htokens, hissues⟩ := exists_textRespelt _ _ hrest
          obtain ⟨tokens, issues⟩ := segment_called hnew line c hcontent hrespelt
          rw [count, Nat.add_zero] at htokens hissues ⊢
          exact ⟨_, .called hcontent hrespelt, by rw [tokens, htokens]; rfl,
            by rw [issues, hissues]; rfl⟩
  termination_by cs.length
  decreasing_by
    all_goals exact Nat.lt_succ_of_le (length_segment_rest_le c more)

/-- Tokens with another name in place of some names are the tokens of a source. -/
theorem exists_sourceRespelt (source : String) {ts' : List Token}
    (h : Retold new (wordsOf source) ts') :
    ∃ source', SourceRespelt new source source' ∧ wordsOf source' = ts' ∧
      lexicalIssuesOf source' = lexicalIssuesOf source := by
  rw [wordsOf_eq] at h
  obtain ⟨cs', hrespelt, htokens, hissues⟩ := exists_textRespelt hnew 1 source.toList h
  refine ⟨String.ofList cs', ?_, ?_, ?_⟩
  · rw [SourceRespelt, String.toList_ofList]
    exact hrespelt
  · rw [wordsOf_eq, String.toList_ofList]
    exact htokens
  · rw [lexicalIssuesOf_eq, lexicalIssuesOf_eq, String.toList_ofList]
    exact hissues

end

end Lox
