import JayFrontEnd.Text.Quoted

/-!
# Tokens

A token has the offset where it starts, the kind its rule gives it and the text its rule captured.
Two kinds are known to every language: a line break, and the end of the tokens.
-/

namespace JayFrontEnd

structure Token where
  position : Nat
  kind : String
  text : Option String
  deriving DecidableEq, Repr

namespace Token

def newline : String := "NEWLINE"

def eos : String := "EOS"

def isLayout (t : Token) : Bool := t.kind == newline || t.kind == eos

def textD (t : Token) : String := t.text.getD ""

def render (t : Token) : String :=
  match t.text with
  | some text => t.kind ++ "(" ++ Text.quote text ++ ")"
  | none => t.kind

end Token

end JayFrontEnd
