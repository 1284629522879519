/-! # Kinds of tokens

`Kind` is the closed list of lexical categories, in the order in which they are numbered, with
their names, the words and characters that spell them, and the operators that a following `=`
changes. -/

namespace LoxSyntax

inductive Kind
  | leftParen | rightParen | leftBrace | rightBrace
  | comma | dot | minus | plus | semicolon | slash | star
  | bang | bangEqual | equal | equalEqual | greater | greaterEqual | less | lessEqual
  | identifier | string | number
  | andWord | classWord | elseWord | falseWord | funWord | forWord | ifWord | nilWord | orWord
  | printWord | returnWord | superWord | thisWord | trueWord | varWord | whileWord
  | eof
  deriving DecidableEq, Inhabited

namespace Kind

def all : List Kind :=
  [leftParen, rightParen, leftBrace, rightBrace, comma, dot, minus, plus, semicolon, slash, star,
   bang, bangEqual, equal, equalEqual, greater, greaterEqual, less, lessEqual,
   identifier, string, number,
   andWord, classWord, elseWord, falseWord, funWord, forWord, ifWord, nilWord, orWord, printWord,
   returnWord, superWord, thisWord, trueWord, varWord, whileWord, eof]

/-- The place of a kind in the list of all, from 1. -/
def ordinal (kind : Kind) : Nat := all.idxOf kind + 1

def name : Kind → String
  | leftParen => "LEFT_PAREN"
  | rightParen => "RIGHT_PAREN"
  | leftBrace => "LEFT_BRACE"
  | rightBrace => "RIGHT_BRACE"
  | comma => "COMMA"
  | dot => "DOT"
  | minus => "MINUS"
  | plus => "PLUS"
  | semicolon => "SEMICOLON"
  | slash => "SLASH"
  | star => "STAR"
  | bang => "BANG"
  | bangEqual => "BANG_EQUAL"
  | equal => "EQUAL"
  | equalEqual => "EQUAL_EQUAL"
  | greater => "GREATER"
  | greaterEqual => "GREATER_EQUAL"
  | less => "LESS"
  | lessEqual => "LESS_EQUAL"
  | identifier => "IDENTIFIER"
  | string => "STRING"
  | number => "NUMBER"
  | andWord => "AND"
  | classWord => "CLASS"
  | elseWord => "ELSE"
  | falseWord => "FALSE"
  | funWord => "FUN"
  | forWord => "FOR"
  | ifWord => "IF"
  | nilWord => "NIL"
  | orWord => "OR"
  | printWord => "PRINT"
  | returnWord => "RETURN"
  | superWord => "SUPER"
  | thisWord => "THIS"
  | trueWord => "TRUE"
  | varWord => "VAR"
  | whileWord => "WHILE"
  | eof => "EOF"

def ofName? (name : String) : Option Kind :=
  all.find? (·.name = name)

/-- The reserved words, in alphabetical order. -/
def keywords : List (String × Kind) :=
  [("and", andWord), ("class", classWord), ("else", elseWord), ("false", falseWord),
   ("for", forWord), ("fun", funWord), ("if", ifWord), ("nil", nilWord), ("or", orWord),
   ("print", printWord), ("return", returnWord), ("super", superWord), ("this", thisWord),
   ("true", trueWord), ("var", varWord), ("while", whileWord)]

/-- The kind of a word: its own if it is reserved, an identifier otherwise. -/
def ofWord (word : String) : Kind :=
  (keywords.lookup word).getD identifier

/-- The characters that are a token by themselves, in the order of their code points. -/
def punctuation : List (Char × Kind) :=
  [('(', leftParen), (')', rightParen), ('*', star), ('+', plus), (',', comma), ('-', minus),
   ('.', dot), (';', semicolon), ('\x7b', leftBrace), ('\x7d', rightBrace)]

def ofPunctuation? (c : Char) : Option Kind :=
  punctuation.lookup c

/-- The characters that a following `=` belongs to, each with its kind alone and its kind with
the `=`, in the order of their code points. -/
def operators : List (Char × Kind × Kind) :=
  [('!', bang, bangEqual), ('<', less, lessEqual), ('=', equal, equalEqual),
   ('>', greater, greaterEqual)]

/-- The kinds of a character that a following `=` belongs to, alone and with the `=`. -/
def ofOperator? (c : Char) : Option (Kind × Kind) :=
  operators.lookup c

end Kind

end LoxSyntax
