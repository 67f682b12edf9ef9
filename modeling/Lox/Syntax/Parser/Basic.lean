import Lox.Diagnostic
import Lox.Syntax.Tree

/-!
# Reading tokens

A `Parser` reads tokens from the front of a list. It looks at one token at a time and never takes one
back. It can fail with a `SyntaxError`, and it can `report` one and go on; what was read up to an error
stays read, so that a caller can pick up from there.

Loops are `iterate` and `collect`. Both end when their step declines. A step that does not decline
takes a token, so the number of tokens left bounds the rounds.
-/

namespace Lox

/-- What is wrong with tokens: the token at which it shows, and how many there were from it on. -/
structure SyntaxError where
  remaining : Nat
  token : Token
  issue : SyntaxIssue
  deriving DecidableEq

/-- The diagnostic of a syntax error. -/
def SyntaxError.diagnostic (error : SyntaxError) : Diagnostic :=
  .syntactic error.token.site error.issue

/-- How far a parser has come: the tokens before the end that are left, the token at the end, the next
free identity of an occurrence, and the errors so far that were no reason to stop. -/
structure Parser.State where
  rest : List Token
  ending : Token
  nextId : OccurrenceId
  errors : List SyntaxError

/-- Reads something from the front of a list of tokens. -/
abbrev Parser := EStateM SyntaxError Parser.State

namespace Parser

variable {α : Type}

/-! ### Looking at the next token -/

/-- The next token; at the end, the token of the end. -/
def State.here (s : State) : Token := s.rest.head?.getD s.ending

/-- The error that the next token is. -/
def State.error (s : State) (issue : SyntaxIssue) : SyntaxError := ⟨s.rest.length, s.here, issue⟩

/-- Holds if the next token is there and of this kind. -/
def State.sees (s : State) (kind : TokenKind) : Bool :=
  match s.rest with
  | [] => false
  | token :: _ => token.kind == kind

/-- The next token; at the end, the token of the end. -/
def here : Parser Token := return (← get).here

/-- Holds if no token is left. -/
def atEnd : Parser Bool := return (← get).rest.isEmpty

/-- Holds if the next token is of this kind. -/
def sees (kind : TokenKind) : Parser Bool := return (← get).sees kind

/-- Fails at the next token. -/
def fail (issue : SyntaxIssue) : Parser α := do throw ((← get).error issue)

/-- Notes an error and goes on. -/
def note (error : SyntaxError) : Parser Unit :=
  modify fun s => { s with errors := s.errors ++ [error] }

/-- Notes that the next token is an error and goes on. -/
def report (issue : SyntaxIssue) : Parser Unit := do note ((← get).error issue)

/-! ### Taking tokens -/

/-- Takes the next token, if there is one. -/
def skip : Parser Unit := modify fun s => { s with rest := s.rest.tail }

/-- Takes the next token if `test` holds of it. -/
def acceptIf (test : Token → Bool) : Parser (Option Token) := do
  match (← get).rest with
  | [] => return none
  | token :: _ => if test token then skip; return some token else return none

/-- Takes the next token if it is of this kind, and says so. -/
def accept (kind : TokenKind) : Parser Bool := do
  if ← sees kind then skip; return true else return false

/-- Takes the next token, which has to be of this kind. -/
def expect (kind : TokenKind) (what : Expectation) : Parser Token := do
  if ← sees kind then
    let token ← here
    skip
    return token
  else fail (.expected what)

/-- Takes the next token, which has to be this mark. -/
def expectMark (mark : Symbol) (place : MarkPlace) : Parser Token :=
  expect (.symbol mark) (.mark mark place)

/-- Takes the tokens up to the first of which `test` does not hold. -/
def acceptWhile (test : Token → Bool) : Parser (List Token) := do
  let taken := (← get).rest.takeWhile test
  modify fun s => { s with rest := s.rest.dropWhile test }
  return taken

/-- An identity that no occurrence has had yet. -/
def freshId : Parser OccurrenceId := do
  let id := (← get).nextId
  modify fun s => { s with nextId := id + 1 }
  return id

/-! ### Loops -/

/-- At most as many steps of `iterate` as there are tokens in a list. -/
def iterateAlong (step : α → Parser (Option α)) : List Token → α → Parser α
  | [], a => return a
  | _ :: left, a => do
    match ← step a with
    | none => return a
    | some b => iterateAlong step left b

/-- Applies `step` again and again until it declines. -/
def iterate (step : α → Parser (Option α)) (a : α) : Parser α := do
  iterateAlong step (← get).rest a

/-- At most as many steps of `collect` as there are tokens in a list; the first is told `index`. -/
def collectAlong (step : Nat → Parser (Option α)) : List Token → Nat → Parser (List α)
  | [], _ => return []
  | _ :: left, index => do
    match ← step index with
    | none => return []
    | some a => return a :: (← collectAlong step left (index + 1))

/-- Collects what `step` gives until it declines; `step` is told its index. -/
def collect (step : Nat → Parser (Option α)) : Parser (List α) := do
  collectAlong step (← get).rest 0

/-- The items of a list in which commas stand between them. Each item behind the first `maxArguments`
is an error that is reported with `issue`, and is read all the same. -/
def commaSeparated (issue : SyntaxIssue) (item : Parser α) : Parser (List α) := do
  let numbered (index : Nat) : Parser α := do
    if maxArguments ≤ index then report issue
    item
  let first ← numbered 0
  let more ← collect fun index => do
    if ← accept (.symbol .comma) then return some (← numbered (index + 1)) else return none
  return first :: more

/-- The items of a list that the next closing parenthesis may leave empty. -/
def listed (issue : SyntaxIssue) (item : Parser α) : Parser (List α) := do
  if ← sees (.symbol .rightParen) then return [] else commaSeparated issue item

/-! ### Recovery -/

/-- Holds of the words that start a statement. -/
def startsStatement (token : Token) : Bool :=
  match token.kind with
  | .keyword .classKw | .keyword .funKw | .keyword .varKw | .keyword .forKw | .keyword .ifKw
  | .keyword .whileKw | .keyword .printKw | .keyword .returnKw => true
  | _ => false

/-- The tokens from the next boundary of a statement on: behind a semicolon, before a word that starts
a statement, or at the end. -/
def fromBoundary (previous : Token) : List Token → List Token
  | [] => []
  | token :: rest =>
    if previous.kind == .symbol .semicolon || startsStatement token then token :: rest
    else fromBoundary token rest

/-- The tokens behind an offending token from the next boundary on. -/
def afterOffence : List Token → List Token
  | [] => []
  | offending :: rest => fromBoundary offending rest

/-- Notes the error with which `parser` fails, if it does, and goes on from the next boundary. -/
def recovering (parser : Parser α) : Parser (Option α) := fun s =>
  match parser s with
  | .ok a s => .ok (some a) s
  | .error error s =>
    .ok none { s with rest := afterOffence s.rest, errors := s.errors ++ [error] }

/-! ### Running a parser -/

/-- The start of a list of tokens. What follows the first end token does not count; a list without one
ends on the line of its last token, or on line 1. -/
def State.start (nextId : OccurrenceId) (tokens : List Token) : State where
  rest := tokens.takeWhile (·.kind != .eof)
  ending := (tokens.find? (·.kind == .eof)).getD
    (.eof ((tokens.getLast?.map (·.line)).getD 1))
  nextId := nextId
  errors := []

/-- What a parser makes of a list of tokens: a tree, or the errors in it; and the next free identity of
an occurrence. -/
structure Outcome (α : Type) where
  result : Except (List SyntaxError) α
  nextId : OccurrenceId

/-- Runs a parser on a list of tokens. One error is enough to lose the tree. -/
def run (parser : Parser α) (nextId : OccurrenceId) (tokens : List Token) : Outcome α :=
  match parser (State.start nextId tokens) with
  | .ok a s => ⟨if s.errors.isEmpty then .ok a else .error s.errors, s.nextId⟩
  | .error error s => ⟨.error (s.errors ++ [error]), s.nextId⟩

end Parser

end Lox
