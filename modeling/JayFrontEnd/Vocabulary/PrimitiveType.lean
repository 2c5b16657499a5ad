import JayFrontEnd.Vocabulary.TokenKind

/-!
# The types of Jay

The three primitive types, their spellings in declarations and the literals that have them.
-/

namespace JayFrontEnd

inductive PrimitiveType where
  | string
  | int
  | float
  deriving DecidableEq, Repr

namespace PrimitiveType

def all : List PrimitiveType := [string, int, float]

def name : PrimitiveType → String
  | string => "string"
  | int => "int"
  | float => "float"

def aliases : PrimitiveType → List String
  | string => ["str"]
  | int => ["integer"]
  | float => []

def literal : PrimitiveType → TokenKind
  | string => .string
  | int => .integer
  | float => .float

def ofName? (name : String) : Option PrimitiveType :=
  all.find? fun t => t.name == name || t.aliases.contains name

def ofLiteral? (k : TokenKind) : Option PrimitiveType := all.find? (·.literal == k)

end PrimitiveType

end JayFrontEnd
