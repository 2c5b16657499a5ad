/-!
# The tokens of Jay

The kinds of token in lexing priority: where two kinds match, the earlier one wins, so keywords come
before names, floats before integers and comments before division.
-/

namespace JayFrontEnd

inductive TokenKind where
  | comment
  | newline
  | whitespace
  | importKeyword
  | varKeyword
  | funcKeyword
  | string
  | float
  | integer
  | identifier
  | parenStart
  | parenEnd
  | curlStart
  | curlEnd
  | comma
  | equals
  | dot
  | add
  | sub
  | mul
  | div
  deriving DecidableEq, Repr

inductive TokenCategory where
  | trivia
  | layout
  | keyword
  | literal
  | name
  | punctuation
  | operator
  deriving DecidableEq, Repr

namespace TokenKind

def all : List TokenKind :=
  [comment, newline, whitespace, importKeyword, varKeyword, funcKeyword, string, float, integer,
    identifier, parenStart, parenEnd, curlStart, curlEnd, comma, equals, dot, add, sub, mul, div]

def name : TokenKind → String
  | comment => "COMMENT"
  | newline => "NEWLINE"
  | whitespace => "WHITESPACE"
  | importKeyword => "IMPORT"
  | varKeyword => "VAR"
  | funcKeyword => "FUNC"
  | string => "STRING"
  | float => "FLOAT"
  | integer => "INTEGER"
  | identifier => "IDENTIFIER"
  | parenStart => "PARENT_START"
  | parenEnd => "PARENT_END"
  | curlStart => "CURL_START"
  | curlEnd => "CURL_END"
  | comma => "COMMA"
  | equals => "EQUALS"
  | dot => "DOT"
  | add => "ADD"
  | sub => "SUB"
  | mul => "MUL"
  | div => "DIV"

/-- What a token of the kind looks like; a capture group marks the text it carries. -/
def pattern : TokenKind → String
  | comment => "//[^\\n]*"
  | newline => "(?:\\r?\\n)+"
  | whitespace => "[ \\t]+"
  | importKeyword => "import\\b"
  | varKeyword => "var\\b"
  | funcKeyword => "func\\b"
  | string => "\"([^\"\\n]*)\""
  | float => "([0-9]+\\.[0-9]+)"
  | integer => "([0-9]+)"
  | identifier => "([a-zA-Z_][a-zA-Z0-9_]*)"
  | parenStart => "\\("
  | parenEnd => "\\)"
  | curlStart => "\\\x7b"
  | curlEnd => "\\\x7d"
  | comma => ","
  | equals => "="
  | dot => "\\."
  | add => "\\+"
  | sub => "-"
  | mul => "\\*"
  | div => "/"

def category : TokenKind → TokenCategory
  | comment | whitespace => .trivia
  | newline => .layout
  | importKeyword | varKeyword | funcKeyword => .keyword
  | string | float | integer => .literal
  | identifier => .name
  | parenStart | parenEnd | curlStart | curlEnd | comma | equals | dot => .punctuation
  | add | sub | mul | div => .operator

def omitted (k : TokenKind) : Bool := k.category == .trivia

def ofName? (name : String) : Option TokenKind := all.find? (·.name == name)

theorem name_injective {k l : TokenKind} (h : k.name = l.name) : k = l := by
  have hk : ∀ k : TokenKind, ofName? k.name = some k := fun k => by cases k <;> decide
  exact Option.some.inj ((hk k).symm.trans (h ▸ hk l))

end TokenKind

end JayFrontEnd
