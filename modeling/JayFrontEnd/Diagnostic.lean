import JayFrontEnd.Source

/-!
# Diagnostics

A diagnostic shows a fault at its place in the source: a header, the source line and a caret under
the character the fault points at. A labelled fault marks the offset in the joined text instead.
-/

namespace JayFrontEnd

structure Diagnostic where
  link : String
  message : String
  line : String
  column : Nat
  deriving DecidableEq, Repr

namespace Diagnostic

/-- The fault in its source, if it has an offset that lies there. -/
def of? (source : Source) (fault : Fault) : Option Diagnostic := do
  let offset ← fault.offset?
  let p ← source.position? offset
  some ⟨p.link, fault.message, p.lineText, p.column⟩

/-- The first `n` characters of a line blanked out; tabs stay, so that widths agree. -/
def blanks : Nat → List Char → List Char
  | 0, _ => []
  | n + 1, [] => ' ' :: blanks n []
  | n + 1, c :: cs => (if c = '\t' then '\t' else ' ') :: blanks n cs

def caret (d : Diagnostic) : String := String.ofList (blanks d.column d.line.toList ++ ['^'])

def render (d : Diagnostic) : String :=
  s!"error: {d.message} --> {d.link}\n    {d.line}\n    {d.caret}"

end Diagnostic

structure LabelledFault where
  message : String
  code : String
  offset : Nat
  length : Nat
  label : String
  deriving DecidableEq, Repr

/-- Marks the fault's offset, or the start of the text if it has none; never past the end. -/
def LabelledFault.of (source : Source) (fault : Fault) : LabelledFault :=
  { message := fault.message
    code := "jay::compile"
    offset := min (fault.offset?.getD 0) source.length
    length := 0
    label := "error here" }

end JayFrontEnd
