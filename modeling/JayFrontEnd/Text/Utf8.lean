/-!
# Texts measured in bytes

Offsets into a text count UTF-8 bytes. `byteLength` measures a text, `dropBytes?` and `takeBytes?`
cut it at an offset and refuse one that is past the end or inside a character.
-/

namespace JayFrontEnd.Text

def byteLength : List Char → Nat
  | [] => 0
  | c :: cs => c.utf8Size + byteLength cs

def dropBytes? : Nat → List Char → Option (List Char)
  | 0, cs => some cs
  | _ + 1, [] => none
  | n + 1, c :: cs => if c.utf8Size ≤ n + 1 then dropBytes? (n + 1 - c.utf8Size) cs else none

def takeBytes? : Nat → List Char → Option (List Char)
  | 0, _ => some []
  | _ + 1, [] => none
  | n + 1, c :: cs =>
    if c.utf8Size ≤ n + 1 then (takeBytes? (n + 1 - c.utf8Size) cs).map (c :: ·) else none

def charsWithin : Nat → List Char → List Char
  | 0, _ | _, [] => []
  | n, c :: cs => c :: charsWithin (n - c.utf8Size) cs

@[simp] theorem byteLength_nil : byteLength [] = 0 := rfl

@[simp] theorem byteLength_cons (c : Char) (cs : List Char) :
    byteLength (c :: cs) = c.utf8Size + byteLength cs := rfl

@[simp] theorem byteLength_append (as bs : List Char) :
    byteLength (as ++ bs) = byteLength as + byteLength bs := by
  induction as with
  | nil => simp
  | cons c cs ih => simp [ih, Nat.add_assoc]

theorem charsWithin_append (as bs : List Char) :
    charsWithin (byteLength as) (as ++ bs) = as := by
  induction as with
  | nil =>
    rw [byteLength_nil]
    unfold charsWithin
    rfl
  | cons c cs ih =>
    have hpos := c.utf8Size_pos
    have hne : byteLength (c :: cs) ≠ 0 := by
      rw [byteLength_cons]
      omega
    rw [List.cons_append, charsWithin, byteLength_cons, Nat.add_sub_cancel_left, ih]
    exact hne

def split (separator : Char) : List Char → List (List Char)
  | [] => [[]]
  | c :: cs =>
    if c = separator then [] :: split separator cs
    else match split separator cs with
      | [] => [[c]]
      | part :: parts => (c :: part) :: parts

/-- The lines of a text, each without the line feed that ends it. -/
def lines (cs : List Char) : List (List Char) := split '\n' cs

/-- A text without the carriage returns at its end. -/
def trimReturns (cs : List Char) : List Char :=
  (cs.reverse.dropWhile (· == '\r')).reverse

end JayFrontEnd.Text
