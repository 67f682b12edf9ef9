/-!
# Tokens

A token is a piece of source text with what it is and the line on which it ends. What it is, its
`TokenKind`, is a mark of punctuation or an operator, a reserved word, a name, or a literal with its
value. The end of a source is a token too.

The kind does not fix the text. A host can build tokens by hand, and places in error messages and the
names in a syntax tree are always the text.
-/

namespace Lox

/-- Punctuation and operators. -/
inductive Symbol where
  | leftParen
  | rightParen
  | leftBrace
  | rightBrace
  | comma
  | dot
  | minus
  | plus
  | semicolon
  | slash
  | star
  | bang
  | bangEqual
  | equal
  | equalEqual
  | greater
  | greaterEqual
  | less
  | lessEqual
  deriving Repr, DecidableEq

/-- How a mark of punctuation or an operator is written. -/
def Symbol.spelling : Symbol → String
  | leftParen => "("
  | rightParen => ")"
  | leftBrace => "\x7b"
  | rightBrace => "\x7d"
  | comma => ","
  | dot => "."
  | minus => "-"
  | plus => "+"
  | semicolon => ";"
  | slash => "/"
  | star => "*"
  | bang => "!"
  | bangEqual => "!="
  | equal => "="
  | equalEqual => "=="
  | greater => ">"
  | greaterEqual => ">="
  | less => "<"
  | lessEqual => "<="

/-- Reserved words. -/
inductive Keyword where
  | andKw
  | classKw
  | elseKw
  | falseKw
  | funKw
  | forKw
  | ifKw
  | nilKw
  | orKw
  | printKw
  | returnKw
  | superKw
  | thisKw
  | trueKw
  | varKw
  | whileKw
  deriving Repr, DecidableEq

namespace Keyword

/-- All reserved words. -/
def all : List Keyword :=
  [andKw, classKw, elseKw, falseKw, funKw, forKw, ifKw, nilKw, orKw, printKw, returnKw, superKw,
    thisKw, trueKw, varKw, whileKw]

/-- How a reserved word is written. -/
def spelling : Keyword → String
  | andKw => "and"
  | classKw => "class"
  | elseKw => "else"
  | falseKw => "false"
  | funKw => "fun"
  | forKw => "for"
  | ifKw => "if"
  | nilKw => "nil"
  | orKw => "or"
  | printKw => "print"
  | returnKw => "return"
  | superKw => "super"
  | thisKw => "this"
  | trueKw => "true"
  | varKw => "var"
  | whileKw => "while"

/-- The reserved word that is written this way. -/
def ofSpelling? (text : String) : Option Keyword := all.find? fun keyword => keyword.spelling == text

theorem mem_all (keyword : Keyword) : keyword ∈ all := by
  cases keyword <;> decide

theorem spelling_of_ofSpelling? {text : String} {keyword : Keyword}
    (h : ofSpelling? text = some keyword) : keyword.spelling = text := by
  simpa using List.find?_some h

theorem ofSpelling?_spelling (keyword : Keyword) :
    ofSpelling? keyword.spelling = some keyword := by
  cases keyword <;> decide

end Keyword

/-- What a token is; a literal comes with its value. -/
inductive TokenKind where
  | symbol (mark : Symbol)
  | keyword (word : Keyword)
  | identifier
  | string (contents : String)
  | number (value : Float)
  | eof
  deriving DecidableEq

/-- A piece of source text: what it is, the text itself, and the line on which it ends. -/
structure Token where
  kind : TokenKind
  lexeme : String
  line : Nat
  deriving DecidableEq

/-- The token at the end of a source. -/
def Token.eof (line : Nat) : Token := ⟨.eof, "", line⟩

end Lox
