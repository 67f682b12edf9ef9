import Lox.Number.Text
import Lox.Token.Basic

/-!
# The texts of a token

`Token.text` lists a token for a reader: its kind, its lexeme and the value of a literal.
`Token.record` is the same for a machine, one object in JSON whose fields always stand in one order.
-/

namespace Lox

/-- The name of a mark of punctuation or an operator in a list of tokens. -/
def Symbol.label : Symbol → String
  | .leftParen => "LEFT_PAREN"
  | .rightParen => "RIGHT_PAREN"
  | .leftBrace => "LEFT_BRACE"
  | .rightBrace => "RIGHT_BRACE"
  | .comma => "COMMA"
  | .dot => "DOT"
  | .minus => "MINUS"
  | .plus => "PLUS"
  | .semicolon => "SEMICOLON"
  | .slash => "SLASH"
  | .star => "STAR"
  | .bang => "BANG"
  | .bangEqual => "BANG_EQUAL"
  | .equal => "EQUAL"
  | .equalEqual => "EQUAL_EQUAL"
  | .greater => "GREATER"
  | .greaterEqual => "GREATER_EQUAL"
  | .less => "LESS"
  | .lessEqual => "LESS_EQUAL"

/-- The name of a reserved word in a list of tokens. -/
def Keyword.label (keyword : Keyword) : String := keyword.spelling.toUpper

/-- The name of a kind in a list of tokens. -/
def TokenKind.label : TokenKind → String
  | .symbol mark => mark.label
  | .keyword word => word.label
  | .identifier => "IDENTIFIER"
  | .string _ => "STRING"
  | .number _ => "NUMBER"
  | .eof => "EOF"

/-- All marks of punctuation and operators. -/
def Symbol.all : List Symbol :=
  [.leftParen, .rightParen, .leftBrace, .rightBrace, .comma, .dot, .minus, .plus, .semicolon,
    .slash, .star, .bang, .bangEqual, .equal, .equalEqual, .greater, .greaterEqual, .less,
    .lessEqual]

/-- The kind with this name; `contents` and `value` are what a literal of that kind stands for. -/
def TokenKind.ofLabel? (label contents : String) (value : Float) : Option TokenKind :=
  let kinds := Symbol.all.map .symbol ++ Keyword.all.map .keyword ++
    [.identifier, .string contents, .number value, .eof]
  kinds.find? fun kind => kind.label == label

/-- A token as a line for a reader. -/
def Token.text (token : Token) : String :=
  let value := match token.kind with
    | .string contents => contents
    | .number value => Number.tokenText value
    | _ => "null"
  token.kind.label ++ " " ++ token.lexeme ++ " " ++ value

/-- The two hexadecimal digits of a control character. -/
def controlDigits (c : Char) : List Char :=
  [Nat.digitChar (c.toNat / 16), Nat.digitChar (c.toNat % 16)]

/-- A character inside quotes: quotes, backslashes and control characters are escaped. -/
def quotedChar (c : Char) : List Char :=
  if c = '"' then ['\\', '"']
  else if c = '\\' then ['\\', '\\']
  else if c = '\n' then ['\\', 'n']
  else if c = '\r' then ['\\', 'r']
  else if c = '\t' then ['\\', 't']
  else if c = Char.ofNat 8 then ['\\', 'b']
  else if c = Char.ofNat 12 then ['\\', 'f']
  else if c.toNat < 0x20 then ['\\', 'u', '0', '0'] ++ controlDigits c
  else [c]

/-- A text in quotes. -/
def quoted (text : String) : String :=
  String.ofList ('"' :: text.toList.flatMap quotedChar ++ ['"'])

/-- A token as an object in JSON. -/
def Token.record (token : Token) : String :=
  let kind := match token.kind with
    | .string contents => "\x7b\"STRING\":" ++ quoted contents ++ "\x7d"
    | .number value => "\x7b\"NUMBER\":" ++ Number.recordText value ++ "\x7d"
    | kind => quoted kind.label
  "\x7b\"token_type\":" ++ kind ++ ",\"lexeme\":" ++ quoted token.lexeme ++ ",\"line\":" ++
    toString token.line ++ "\x7d"

end Lox
