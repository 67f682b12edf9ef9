import Lox.Proofs.Host.Lines

/-!
# Strategies

What a program does with its input is a `Strategy`: it comes to an end, or it asks `readLine` for a line
and goes on as the answer says. To play a strategy on an input takes the lines that it asks for, from the
first one on, and nothing else (`linesIn_play`). Whatever stands behind these lines, the strategy comes to
the same end, and leaves it alone (`play_ahead`).
-/

namespace Lox

/-! ## Asking for a line -/

/-- What `readLine` answers if this is the input, and what it leaves of it. -/
def ask (input : List UInt8) : Except String Value × List UInt8 :=
  let (answer, world) := HostOffer.readLine.action .empty (.start input) []
  (answer, world.input)

/-- The answer to a line that is text is the text, without the ends of lines that it ends in. -/
def answerTo (line : List UInt8) : Except String Value :=
  match Utf8.decode line with
  | .ok text => .ok (.string (withoutLineEnds text))
  | .error _ => .error "readLine failed: stream did not contain valid UTF-8"

theorem ask_line {input line rest : List UInt8} (h : takeLine input = some (line, rest)) :
    ask input = (answerTo line, rest) := by
  simp only [ask, HostOffer.readLine, World.start, h]
  rfl

/-! ## Strategies -/

/-- What is done with an input, whatever that is: to come to an end, or to ask `readLine` for a line and
go on as it answers. -/
inductive Strategy (β : Type) where
  | ends (result : β)
  | asks (next : Except String Value → Strategy β)

/-- A call of `readLine`: the line that it takes, if there is one left, and what it answers. -/
structure Asked where
  line? : Option (List UInt8)
  answer : Except String Value

/-- There is no line left and no text in the answer, or the answer is the text of the line without the
ends of lines that it ends in. -/
def Asked.IsProper (call : Asked) : Prop :=
  match call.line? with
  | none => call.answer = .ok .nil
  | some line => ∃ text, Utf8.decode line = .ok text ∧
      call.answer = .ok (.string (withoutLineEnds text))

namespace Strategy

variable {β γ : Type}

/-- To what end the strategy comes with this input, and what it leaves of it. -/
def play : Strategy β → List UInt8 → β × List UInt8
  | ends result, input => (result, input)
  | asks next, input => (next (ask input).1).play (ask input).2

/-- The calls of `readLine` on the way. -/
def asked : Strategy β → List UInt8 → List Asked
  | ends _, _ => []
  | asks next, input =>
    ⟨(takeLine input).map (·.1), (ask input).1⟩ :: (next (ask input).1).asked (ask input).2

/-- The lines that are taken on the way. -/
def taken (s : Strategy β) (input : List UInt8) : List (List UInt8) :=
  (s.asked input).filterMap (·.line?)

/-! ### What a play takes -/

section

variable {next : Except String Value → Strategy β} {input line rest : List UInt8}

theorem play_asks_nil : (asks next).play [] = (next (.ok .nil)).play [] := rfl

theorem play_asks (h : takeLine input = some (line, rest)) :
    (asks next).play input = (next (answerTo line)).play rest := by
  rw [play, ask_line h]

theorem taken_asks_nil : (asks next).taken [] = (next (.ok .nil)).taken [] := rfl

theorem taken_asks (h : takeLine input = some (line, rest)) :
    (asks next).taken input = line :: (next (answerTo line)).taken rest := by
  rw [taken, asked, h, ask_line h]
  rfl

end

/-- The lines of an input are those that a play takes, one after the other, and those that it leaves. -/
theorem linesIn_play (s : Strategy β) (input : List UInt8) :
    linesIn input = s.taken input ++ linesIn (s.play input).2 := by
  induction s generalizing input with
  | ends result => rfl
  | asks next ih =>
    cases htake : takeLine input with
    | none =>
      rw [takeLine_eq_none.mp htake, taken_asks_nil, play_asks_nil]
      exact ih _ []
    | some first =>
      obtain ⟨line, rest⟩ := first
      rw [linesIn_of_takeLine htake, taken_asks htake, play_asks htake, List.cons_append, ← ih]

/-- What is taken shows in what is left. -/
theorem taken_eq (s : Strategy β) (t : Strategy γ) {input : List UInt8}
    (h : (s.play input).2 = (t.play input).2) : s.taken input = t.taken input := by
  have lines := (s.linesIn_play input).symm.trans (t.linesIn_play input)
  rw [h] at lines
  exact List.append_cancel_right lines

theorem flatten_taken (s : Strategy β) (input : List UInt8) :
    (s.taken input).flatten ++ (s.play input).2 = input := by
  have lines := congrArg List.flatten (s.linesIn_play input)
  rw [List.flatten_append, flatten_linesIn, flatten_linesIn] at lines
  exact lines.symm

theorem length_play_le (s : Strategy β) (input : List UInt8) :
    (s.play input).2.length ≤ input.length := by
  have whole := congrArg List.length (s.flatten_taken input)
  rw [List.length_append] at whole
  exact Nat.le.intro ((Nat.add_comm _ _).trans whole)

/-- Where nothing is left, nothing is taken. -/
theorem taken_nil (s : Strategy β) : s.taken [] = [] ∧ (s.play []).2 = [] := by
  have lines := s.linesIn_play []
  obtain ⟨htaken, hleft⟩ := List.append_eq_nil_iff.mp lines.symm
  have rest := flatten_linesIn (s.play []).2
  rw [hleft] at rest
  exact ⟨htaken, rest.symm⟩

/-- What a play leaves of a text is text. -/
theorem isText_play (s : Strategy β) {input : List UInt8} (h : Utf8.IsText input) :
    Utf8.IsText (s.play input).2 := by
  induction s generalizing input with
  | ends result => exact h
  | asks next ih =>
    cases htake : takeLine input with
    | none =>
      rw [takeLine_eq_none.mp htake]
      exact ih _ .nil
    | some first =>
      obtain ⟨line, rest⟩ := first
      rw [play_asks htake]
      exact ih _ (h.takeLine htake).2

/-- If the input is text, each call takes a line and answers with its text, or there is no line left. -/
theorem asked_proper (s : Strategy β) {input : List UInt8} (h : Utf8.IsText input) :
    ∀ call ∈ s.asked input, call.IsProper := by
  induction s generalizing input with
  | ends result => exact List.forall_mem_nil _
  | asks next ih =>
    rw [asked]
    cases htake : takeLine input with
    | none =>
      rw [takeLine_eq_none.mp htake]
      exact List.forall_mem_cons.mpr ⟨rfl, ih _ .nil⟩
    | some first =>
      obtain ⟨line, rest⟩ := first
      obtain ⟨hline, hrest⟩ := h.takeLine htake
      obtain ⟨text, htext⟩ := Utf8.decode_isText.mpr hline
      rw [ask_line htake]
      refine List.forall_mem_cons.mpr ⟨⟨text, htext, ?_⟩, ih _ hrest⟩
      rw [answerTo, htext]

/-- With other lines behind those that are taken, a play comes to the same end and leaves the other ones.
Only where it left nothing, it may have found out that nothing was left. -/
theorem play_ahead (s : Strategy β) {input rest : List UInt8}
    (h : (s.play input).2 = [] → rest = []) :
    s.play ((s.taken input).flatten ++ rest) = ((s.play input).1, rest) := by
  induction s generalizing input with
  | ends result => rfl
  | asks next ih =>
    cases htake : takeLine input with
    | none =>
      obtain rfl := takeLine_eq_none.mp htake
      obtain ⟨htaken, hleft⟩ := (asks next).taken_nil
      rw [h hleft, htaken]
      exact Prod.ext rfl hleft
    | some first =>
      obtain ⟨line, more⟩ := first
      rw [play_asks htake] at h
      have later := ih (answerTo line) h
      obtain ⟨hfirst, -⟩ := firstLine_of_takeLine htake
      -- the line ends where it did, also if it is the last one and has no end
      have again : takeLine (line ++ (((next (answerTo line)).taken more).flatten ++ rest)) =
          some (line, ((next (answerTo line)).taken more).flatten ++ rest) := by
        cases hfirst with
        | ended _ hbody => exact FirstLine.takeLine (.ended _ hbody)
        | last hbody hne =>
          obtain ⟨htaken, hleft⟩ := (next (answerTo line)).taken_nil
          rw [h hleft, htaken]
          exact FirstLine.takeLine (.last hbody hne)
      rw [taken_asks htake, play_asks htake, List.flatten_cons, List.append_assoc, play_asks again, later]

/-! ### Putting strategies together -/

/-- One strategy behind the end of another. -/
def bind : Strategy β → (β → Strategy γ) → Strategy γ
  | ends result, f => f result
  | asks next, f => asks fun answer => (next answer).bind f

theorem play_bind (s : Strategy β) (f : β → Strategy γ) (input : List UInt8) :
    (s.bind f).play input = (f (s.play input).1).play (s.play input).2 := by
  induction s generalizing input with
  | ends result => rfl
  | asks next ih => exact ih _ _

end Strategy

end Lox
