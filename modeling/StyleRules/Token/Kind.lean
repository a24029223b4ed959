/-!
# Token kinds

The kinds of CSS Syntax Level 3 §4, each with a stable name and a code; codes come in ranges, names
and literals first, then numerics, punctuation, trivia and lexical errors.
-/

namespace StyleRules

namespace Token

inductive Kind where
  | ident
  | function
  | atKeyword
  | hash
  | string
  | url
  | delim
  | number
  | percentage
  | dimension
  | colon
  | semicolon
  | comma
  | leftBracket
  | rightBracket
  | leftParen
  | rightParen
  | leftBrace
  | rightBrace
  /-- The opening of an HTML comment. -/
  | cdo
  /-- The closing of an HTML comment. -/
  | cdc
  | whitespace
  | comment
  | badString
  | badUrl
  /-- The end of the text. -/
  | eof
  deriving DecidableEq, Repr

namespace Kind

def all : List Kind :=
  [ident, function, atKeyword, hash, string, url, delim, number, percentage, dimension, colon,
    semicolon, comma, leftBracket, rightBracket, leftParen, rightParen, leftBrace, rightBrace, cdo,
    cdc, whitespace, comment, badString, badUrl, eof]

theorem mem_all (kind : Kind) : kind ∈ all := by cases kind <;> decide

def name : Kind → String
  | ident => "ident"
  | function => "function"
  | atKeyword => "at-keyword"
  | hash => "hash"
  | string => "string"
  | url => "url"
  | delim => "delim"
  | number => "number"
  | percentage => "percentage"
  | dimension => "dimension"
  | colon => "colon"
  | semicolon => "semicolon"
  | comma => "comma"
  | leftBracket => "["
  | rightBracket => "]"
  | leftParen => "("
  | rightParen => ")"
  | leftBrace => "\x7b"
  | rightBrace => "\x7d"
  | cdo => "cdo"
  | cdc => "cdc"
  | whitespace => "whitespace"
  | comment => "comment"
  | badString => "bad-string"
  | badUrl => "bad-url"
  | eof => "eof"

def ofName? (text : String) : Option Kind := all.find? fun kind => kind.name == text

def code : Kind → Nat
  | ident => 0
  | function => 1
  | atKeyword => 2
  | hash => 3
  | string => 4
  | url => 5
  | delim => 6
  | number => 16
  | percentage => 17
  | dimension => 18
  | colon => 32
  | semicolon => 33
  | comma => 34
  | leftBracket => 35
  | rightBracket => 36
  | leftParen => 37
  | rightParen => 38
  | leftBrace => 39
  | rightBrace => 40
  | cdo => 41
  | cdc => 42
  | whitespace => 64
  | comment => 65
  | badString => 240
  | badUrl => 241
  | eof => 255

/-- The spelling of a kind whose tokens are all spelled alike. -/
def lexeme? : Kind → Option String
  | colon => some ":"
  | semicolon => some ";"
  | comma => some ","
  | leftBracket => some "["
  | rightBracket => some "]"
  | leftParen => some "("
  | rightParen => some ")"
  | leftBrace => some "\x7b"
  | rightBrace => some "\x7d"
  | cdo => some "<!--"
  | cdc => some "-->"
  | _ => none

def isTrivia (kind : Kind) : Bool := kind == whitespace || kind == comment

def isError (kind : Kind) : Bool := kind == badString || kind == badUrl

end Kind

end Token

end StyleRules
