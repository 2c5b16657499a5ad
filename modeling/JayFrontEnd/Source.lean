import JayFrontEnd.Fault
import JayFrontEnd.Text.Utf8

/-!
# Sources

A source is a list of named files that share one range of offsets: their texts are joined by a line
feed, and an offset counts the bytes of the joined text. `Source.position?` takes an offset back to
file, line and column; the byte between two files belongs to the end of the earlier one.
-/

namespace JayFrontEnd

structure SourceFile where
  name : String
  text : String
  deriving DecidableEq, Repr

structure Source where
  files : List SourceFile := []
  deriving DecidableEq, Repr

/-- Where an offset lies: lines count from one, columns count characters from zero. -/
structure Position where
  file : String
  line : Nat
  column : Nat
  /-- The line, without the carriage returns at its end. -/
  lineText : String
  deriving DecidableEq, Repr

/-- A position as shown to a reader, with columns from one. -/
def Position.link (p : Position) : String := s!"{p.file}:{p.line}:{p.column + 1}"

namespace SourceFile

def chars (f : SourceFile) : List Char := f.text.toList

/-- The number, column and text of the line that holds byte `n` of the given lines, the first of
which has number `line`. -/
def lineAt? (line : Nat) : Nat → List (List Char) → Option (Nat × Nat × List Char)
  | _, [] => none
  | n, l :: ls =>
    if n ≤ Text.byteLength l then
      (Text.takeBytes? n l).map fun before => (line, before.length, l)
    else lineAt? (line + 1) (n - (Text.byteLength l + 1)) ls

def position? (f : SourceFile) (n : Nat) : Option Position :=
  (lineAt? 1 n (Text.lines f.chars)).map fun (line, column, l) =>
    ⟨f.name, line, column, String.ofList (Text.trimReturns l)⟩

end SourceFile

namespace Source

def push (s : Source) (f : SourceFile) : Source := ⟨s.files ++ [f]⟩

def chars (s : Source) : List Char := ['\n'].intercalate (s.files.map (·.chars))

def text (s : Source) : String := String.ofList s.chars

/-- The number of bytes of the joined text. -/
def length (s : Source) : Nat := Text.byteLength s.chars

def positionIn? : List SourceFile → Nat → Option Position
  | [], _ => none
  | f :: fs, n =>
    let length := Text.byteLength f.chars
    if n ≤ length then f.position? n else positionIn? fs (n - (length + 1))

/-- The position of an offset, unless it is past the end or inside a character. -/
def position? (s : Source) (offset : Nat) : Option Position := positionIn? s.files offset

def position (s : Source) (offset : Nat) : Except Fault Position :=
  match s.position? offset with
  | some p => .ok p
  | none => .error (.positionOutOfRange offset)

end Source

end JayFrontEnd
