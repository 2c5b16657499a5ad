import JayFrontEnd.Node
import JayFrontEnd.Vocabulary.TokenKind
import Mathlib.Data.List.Infix

/-!
# Places among tokens

What may stand at an offset of a text, by its tokens: a name, a name behind that of a module and a
dot, or the name of a module in an import directive.
-/

namespace JayFrontEnd

/-- The token is of a kind of Jay. -/
def Token.Is (t : Token) (k : TokenKind) : Prop := t.kind = k.name

def Token.Carries (t : Token) (k : TokenKind) (text : String) : Prop := t.Is k ∧ t.text = some text

/-- Names and literals among the tokens have a text. -/
def Worded (ts : List Token) : Prop :=
  ∀ t ∈ ts, ∀ k : TokenKind, k.category = .literal ∨ k.category = .name → t.Is k →
    t.Carries k t.textD

/-- A token stands at the offset. -/
def StandsAt (ts : List Token) (offset : Nat) : Prop := ∃ t ∈ ts, t.position = offset

/-- The name stands at the offset. -/
def NamedAt (ts : List Token) (name : String) (offset : Nat) : Prop :=
  ∃ t ∈ ts, t.Carries .identifier name ∧ t.position = offset

/-- The name stands at the offset, right behind the name of a module and a dot. -/
def MemberAt (ts : List Token) (module name : String) (offset : Nat) : Prop :=
  ∃ qualifier dot t, [qualifier, dot, t] <:+: ts ∧ qualifier.Carries .identifier module ∧
    dot.Is .dot ∧ t.Carries .identifier name ∧ t.position = offset

/-- An import directive has the name of the module at the offset. -/
def DirectiveAt (ts : List Token) (module : String) (offset : Nat) : Prop :=
  ∃ keyword t lineEnd, [keyword, t, lineEnd] <:+: ts ∧ keyword.Is .importKeyword ∧
    t.Carries .string module ∧ lineEnd.Is .newline ∧ t.position = offset

variable {ts v w : List Token} {t : Token} {name module : String} {offset : Nat}

theorem NamedAt.standsAt (h : NamedAt ts name offset) : StandsAt ts offset :=
  h.imp fun _ ht => ⟨ht.1, ht.2.2⟩

theorem MemberAt.namedAt (h : MemberAt ts module name offset) : NamedAt ts name offset := by
  obtain ⟨qualifier, dot, t, hts, -, -, ht⟩ := h
  exact ⟨t, hts.subset (by simp), ht⟩

theorem DirectiveAt.standsAt (h : DirectiveAt ts module offset) : StandsAt ts offset := by
  obtain ⟨keyword, t, lineEnd, hts, -, -, -, ht⟩ := h
  exact ⟨t, hts.subset (by simp), ht⟩

theorem NamedAt.mono (h : NamedAt v name offset) (hv : v <:+: w) : NamedAt w name offset :=
  h.imp fun _ ht => ⟨hv.subset ht.1, ht.2⟩

theorem MemberAt.mono (h : MemberAt v module name offset) (hv : v <:+: w) :
    MemberAt w module name offset := by
  obtain ⟨qualifier, dot, t, hts, h⟩ := h
  exact ⟨qualifier, dot, t, hts.trans hv, h⟩

theorem DirectiveAt.mono (h : DirectiveAt v module offset) (hv : v <:+: w) :
    DirectiveAt w module offset := by
  obtain ⟨keyword, t, lineEnd, hts, h⟩ := h
  exact ⟨keyword, t, lineEnd, hts.trans hv, h⟩

theorem Worded.namedAt (h : Worded ts) (ht : t ∈ ts) (hid : t.Is .identifier) :
    NamedAt ts (Node.ofToken t).textD (Node.ofToken t).position :=
  ⟨t, ht, h t ht .identifier (.inr rfl) hid, rfl⟩

theorem Worded.directiveAt (h : Worded ts) {keyword lineEnd : Token}
    (hts : [keyword, t, lineEnd] <:+: ts) (hk : keyword.Is .importKeyword) (ht : t.Is .string)
    (hl : lineEnd.Is .newline) : DirectiveAt ts t.textD t.position :=
  ⟨keyword, t, lineEnd, hts, hk, h t (hts.subset (by simp)) .string (.inl rfl) ht, hl, rfl⟩

/-! ## The pieces of a run of tokens -/

theorem infix_of_cons (h : t :: w <:+: ts) : t ∈ ts ∧ w <:+: ts :=
  ⟨h.subset (List.mem_cons_self ..), (List.suffix_cons t w).isInfix.trans h⟩

theorem infix_of_append (h : v ++ w <:+: ts) : v <:+: ts ∧ w <:+: ts :=
  ⟨(List.prefix_append v w).isInfix.trans h, (List.suffix_append v w).isInfix.trans h⟩

theorem infix_of_flatMap {xs : List (List Token × Node)} (h : xs.flatMap (·.1) <:+: ts)
    {x : List Token × Node} (hx : x ∈ xs) : x.1 <:+: ts :=
  (List.infix_of_mem_flatten (List.mem_map_of_mem hx)).trans h

theorem infix_tail (h : w <:+: ts) : w.tail <:+: ts := (List.tail_suffix w).isInfix.trans h

end JayFrontEnd
