import JayFrontEnd.Text.CaseFolding
import JayFrontEnd.Text.CharProperty

/-!
# Sets of characters

What one place of a pattern may take. A set is kept as its ranges of code points, in ascending order
and with a character between one range and the next, so that two ways to write the same characters
give the same set.
-/

namespace JayFrontEnd

/-- A set of characters, by ranges of code points. -/
structure CharSet where
  ranges : List (Nat × Nat)
  deriving DecidableEq, Repr

namespace CharSet

/-- The code point after `n`; the surrogates between them are no characters. -/
def codeAfter (n : Nat) : Nat := if n = 0xd7ff then 0xe000 else n + 1

def codeBefore (n : Nat) : Nat := if n = 0xe000 then 0xd7ff else n - 1

/-- Adds a range to others, and joins those that it meets. -/
def insertRange (lo hi : Nat) : List (Nat × Nat) → List (Nat × Nat)
  | [] => [(lo, hi)]
  | (a, b) :: rs =>
    if codeAfter hi < a then (lo, hi) :: (a, b) :: rs
    else if codeAfter b < lo then (a, b) :: insertRange lo hi rs
    else insertRange (Nat.min lo a) (Nat.max hi b) rs

/-- The ranges between the given ones, from `start` to the last code point. -/
def gaps (start : Nat) : List (Nat × Nat) → List (Nat × Nat)
  | [] => if start ≤ 0x10ffff then [(start, 0x10ffff)] else []
  | (lo, hi) :: rs =>
    let rest := gaps (codeAfter hi) rs
    if start < lo then (start, codeBefore lo) :: rest else rest

def contains (k : CharSet) (c : Char) : Bool := Text.inRanges k.ranges c.toNat

def empty : CharSet := ⟨[]⟩

def range (lo hi : Char) : CharSet := ⟨[(lo.toNat, hi.toNat)]⟩

def single (c : Char) : CharSet := range c c

def union (k l : CharSet) : CharSet :=
  ⟨l.ranges.foldl (fun rs r => insertRange r.1 r.2 rs) k.ranges⟩

def complement (k : CharSet) : CharSet := ⟨gaps 0 k.ranges⟩

def unions (ks : List CharSet) : CharSet := ks.foldl union empty

def ofList (cs : List Char) : CharSet := unions (cs.map single)

def single? (k : CharSet) : Option Char :=
  match k.ranges with
  | [(lo, hi)] => if lo = hi then some (Char.ofNat lo) else none
  | _ => none

def digits : CharSet := ⟨(0x30, 0x39) :: Text.digitRanges⟩

def wordChars : CharSet :=
  ⟨[(0x30, 0x39), (0x41, 0x5a), (0x5f, 0x5f), (0x61, 0x7a)] ++ Text.wordRanges⟩

def spaces : CharSet := ⟨Text.spaceRanges⟩

def dot (lineFeeds : Bool) : CharSet :=
  if lineFeeds then empty.complement else (single '\n').complement

/-- The set with every case of each character it holds. -/
def foldCase (k : CharSet) : CharSet :=
  let folded := ofList ((Text.casePairs.filter fun p => k.contains p.1).map (·.2))
  k.union (ofList ((Text.casePairs.filter fun p => folded.contains p.2).map (·.1)))

/-- Joined ranges hold the code points of the new one and of those before, surrogates apart. -/
theorem inRanges_insertRange {n : Nat} (hn : n < 0xd800 ∨ 0xdfff < n) (lo hi : Nat)
    (rs : List (Nat × Nat)) :
    Text.inRanges (insertRange lo hi rs) n = (decide (lo ≤ n ∧ n ≤ hi) || Text.inRanges rs n) := by
  induction rs generalizing lo hi with
  | nil => simp [insertRange, Text.inRanges]
  | cons r rs ih =>
    obtain ⟨a, b⟩ := r
    unfold insertRange
    split
    · simp [Text.inRanges]
    · next hlo =>
      split
      · have := ih lo hi
        simp only [Text.inRanges, List.any_cons] at this ⊢
        rw [this, Bool.or_left_comm]
      · next hhi =>
        rw [ih]
        simp only [Text.inRanges, List.any_cons, ← Bool.or_assoc]
        congr 1
        simp only [codeAfter, Nat.not_lt] at hlo hhi
        rw [Bool.eq_iff_iff]
        simp only [decide_eq_true_eq, Bool.or_eq_true, Bool.and_eq_true, Nat.min_def, Nat.max_def]
        split at hlo <;> split at hhi <;> split <;> split <;> omega

theorem contains_union (k l : CharSet) (c : Char) :
    (k.union l).contains c = (k.contains c || l.contains c) := by
  have hc : c.toNat < 0xd800 ∨ 0xdfff < c.toNat := c.valid.imp id And.left
  unfold union contains
  generalize l.ranges = rs
  induction rs generalizing k with
  | nil => simp [Text.inRanges]
  | cons r rs ih =>
    have := ih ⟨insertRange r.1 r.2 k.ranges⟩
    simp only [List.foldl_cons] at this ⊢
    rw [this, inRanges_insertRange hc]
    simp [Text.inRanges, Bool.or_assoc, Bool.or_left_comm]

theorem contains_single {c d : Char} : (single c).contains d = true ↔ d = c := by
  have heq : d = c ↔ d.toNat = c.toNat := Char.toNat_inj.symm
  rw [heq]
  simp only [contains, single, range, Text.inRanges, List.any_cons, List.any_nil, Bool.or_false,
    Bool.and_eq_true, decide_eq_true_eq]
  omega

theorem contains_ofList {cs : List Char} {c : Char} : (ofList cs).contains c = true ↔ c ∈ cs := by
  have hfoldl : ∀ k : CharSet, (((cs.map single).foldl union k).contains c = true ↔
      k.contains c = true ∨ c ∈ cs) := by
    induction cs with
    | nil => simp
    | cons d cs ih =>
      intro k
      rw [List.map_cons, List.foldl_cons, ih, contains_union, Bool.or_eq_true, contains_single,
        List.mem_cons, or_assoc]
  rw [ofList, unions, hfoldl]
  exact or_iff_right Bool.false_ne_true

/-- The set holds what is another case of a character that it held before. -/
theorem contains_foldCase {k : CharSet} {c : Char} : k.foldCase.contains c = true ↔
    ∃ d, k.contains d = true ∧ Text.simpleFold d = Text.simpleFold c := by
  simp only [foldCase, contains_union, Bool.or_eq_true, contains_ofList, List.mem_map,
    List.mem_filter, Prod.exists, exists_and_right, exists_eq_right]
  constructor
  · rintro (hc | ⟨folded, hpair, d, hpair', hd⟩)
    · exact ⟨c, hc, rfl⟩
    · exact ⟨d, hd, (Text.eq_simpleFold hpair').symm.trans (Text.eq_simpleFold hpair)⟩
  · rintro ⟨d, hd, hfold⟩
    by_cases hcd : d = c
    · exact .inl (hcd ▸ hd)
    · exact .inr ⟨_, Text.mem_casePairs hfold.symm (Ne.symm hcd), d,
        hfold ▸ Text.mem_casePairs hfold hcd, hd⟩

example : (single 'é').foldCase.contains 'É' = true :=
  contains_foldCase.2 ⟨'é', by decide, by decide +kernel⟩

end CharSet

end JayFrontEnd
