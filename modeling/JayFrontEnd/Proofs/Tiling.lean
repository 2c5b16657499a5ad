import JayFrontEnd.Lexing
import JayFrontEnd.Proofs.Text.Boundary

/-!
# Chunks tile a text

Whatever the rules, a text is cut from its start on into chunks that follow each other without a
gap. Each of them is not empty, and is taken by the first rule in order that takes any of what is
left. `Cuts` says so, and `cuts_chunks` that the cutting goes on to the end of the text or to a
place where no rule takes any. There is only one way to cut a text so far.
-/

namespace JayFrontEnd

open Text

/-- What a lexeme takes is the beginning of the text, and not nothing. -/
structure Lexeme.Takes (l : Lexeme) (cs : List Char) (text : List Char) : Prop where
  text : text = cs ++ l.rest
  size : l.size = byteLength cs
  ne_nil : cs ≠ []

theorem Lexeme.Takes.size_pos {l : Lexeme} {cs text : List Char} (h : l.Takes cs text) :
    0 < l.size := by
  obtain ⟨c, cs, rfl⟩ := List.exists_cons_of_ne_nil h.ne_nil
  rw [h.size, byteLength_cons]
  exact Nat.add_pos_left c.utf8Size_pos _

theorem TokenRule.take?_eq_some {r : TokenRule} {text : List Char} {l : Lexeme}
    (h : r.take? text = some l) : ∃ cs, l.Takes cs text := by
  unfold take? at h
  cases hm : r.regex.search? text with
  | none => rw [hm] at h; cases h
  | some m =>
    obtain ⟨cs, hrest, hoffset⟩ := r.regex.stop_of_search? hm
    simp only [hm] at h
    split at h
    · cases h
    · next hne =>
      cases h
      refine ⟨cs, hrest, hoffset, ?_⟩
      rintro rfl
      exact hne hoffset

/-- A rule with a group in every match carries a text. -/
theorem TokenRule.text_isSome {r : TokenRule} {text : List Char} {l : Lexeme}
    (hr : ∀ m, r.regex.search? text = some m → (m.group? 1).isSome = true)
    (h : r.take? text = some l) : l.text.isSome = true := by
  unfold take? at h
  cases hm : r.regex.search? text with
  | none => rw [hm] at h; cases h
  | some m =>
    simp only [hm] at h
    split at h
    · cases h
    · cases h
      exact hr m hm

/-- The rule is the first in order that takes any of the text. -/
structure FirstTaker (rules : List TokenRule) (text : List Char) (r : TokenRule) (l : Lexeme) :
    Prop where
  first : ∃ before after, rules = before ++ r :: after ∧ ∀ q ∈ before, q.take? text = none
  takes : r.take? text = some l

variable {rules : List TokenRule} {text cs rest : List Char} {c stop : Nat} {pieces : List Chunk}

theorem firstTaking?_eq_some_iff {r : TokenRule} {l : Lexeme} :
    firstTaking? rules text = some (r, l) ↔ FirstTaker rules text r l := by
  unfold firstTaking?
  rw [List.findSome?_eq_some_iff]
  constructor
  · rintro ⟨before, q, after, hrules, htakes, hbefore⟩
    obtain ⟨l', hl, hq⟩ := Option.map_eq_some_iff.1 htakes
    cases hq
    exact ⟨⟨before, after, hrules, fun q hq => Option.map_eq_none_iff.1 (hbefore q hq)⟩, hl⟩
  · rintro ⟨⟨before, after, hrules, hbefore⟩, hl⟩
    exact ⟨before, r, after, hrules, by rw [hl]; rfl,
      fun q hq => Option.map_eq_none_iff.2 (hbefore q hq)⟩

theorem firstTaking?_eq_none_iff :
    firstTaking? rules text = none ↔ ∀ r ∈ rules, r.take? text = none := by
  simp only [firstTaking?, List.findSome?_eq_none_iff, Option.map_eq_none_iff]

/-- From byte `c` on, a text is cut into chunks up to byte `stop`, where `rest` is left. -/
inductive Cuts (rules : List TokenRule) :
    Nat → List Char → List Chunk → Nat → List Char → Prop where
  | nil {c : Nat} {cs : List Char} : Cuts rules c cs [] c cs
  | cons {c stop : Nat} {cs taken rest : List Char} {r : TokenRule} {l : Lexeme}
      {pieces : List Chunk} : FirstTaker rules cs r l → l.Takes taken cs →
      Cuts rules (c + l.size) l.rest pieces stop rest →
      Cuts rules c cs (⟨c, r, l.size, l.text⟩ :: pieces) stop rest

/-- No rule takes any of the text that is left. -/
def Stuck (rules : List TokenRule) (rest : List Char) : Prop :=
  rest ≠ [] ∧ ∀ r ∈ rules, r.take? rest = none

namespace Cuts

theorem exists_taken (h : Cuts rules c cs pieces stop rest) :
    ∃ taken, cs = taken ++ rest ∧ stop = c + byteLength taken := by
  induction h with
  | nil => exact ⟨[], rfl, rfl⟩
  | @cons c stop cs taken rest r l pieces _ htakes _ ih =>
    obtain ⟨more, hmore, rfl⟩ := ih
    refine ⟨taken ++ more, by rw [htakes.text, hmore, List.append_assoc], ?_⟩
    rw [byteLength_append, ← htakes.size, Nat.add_assoc]

/-- The chunks are taken by the rules, and stand between the two ends. -/
theorem within (h : Cuts rules c cs pieces stop rest) :
    ∀ k ∈ pieces, k.rule ∈ rules ∧ c ≤ k.position ∧ k.position < stop := by
  induction h with
  | nil => exact nofun
  | @cons c stop cs taken rest r l pieces hfirst htakes hcuts ih =>
    obtain ⟨before, after, hrules, -⟩ := hfirst.first
    obtain ⟨more, -, hstop⟩ := hcuts.exists_taken
    have hpos := htakes.size_pos
    refine List.forall_mem_cons.2 ⟨⟨by simp [hrules], Nat.le_refl _, ?_⟩, fun k hk => ?_⟩
    · show c < stop
      omega
    · obtain ⟨hmem, hle, hlt⟩ := ih k hk
      exact ⟨hmem, by omega, hlt⟩

theorem exists_take? (h : Cuts rules c cs pieces stop rest) :
    ∀ k ∈ pieces, ∃ text l, k.rule.take? text = some l ∧ k.text = l.text := by
  induction h with
  | nil => exact nofun
  | cons hfirst _ _ ih => exact List.forall_mem_cons.2 ⟨⟨_, _, hfirst.takes, rfl⟩, ih⟩

theorem sorted (h : Cuts rules c cs pieces stop rest) :
    pieces.Pairwise (·.position < ·.position) := by
  induction h with
  | nil => exact .nil
  | @cons c stop cs taken rest r l pieces _ htakes hcuts ih =>
    refine List.pairwise_cons.2 ⟨fun k hk => ?_, ih⟩
    have hpos := htakes.size_pos
    obtain ⟨-, hle, -⟩ := hcuts.within k hk
    show c < k.position
    omega

/-- The chunks, and the end of the last one, stand at boundaries of the text. -/
theorem boundary (h : Cuts rules c cs pieces stop rest) (before : List Char)
    (htext : text = before ++ cs) (hc : c = byteLength before) :
    (∀ k ∈ pieces, Boundary k.position text) ∧ Boundary stop text := by
  induction h generalizing before with
  | nil =>
    subst htext hc
    exact ⟨nofun, .of_append ..⟩
  | @cons c stop cs taken rest r l pieces _ htakes _ ih =>
    obtain ⟨hchunks, hstop⟩ := ih (before ++ taken)
      (by rw [htext, htakes.text, List.append_assoc])
      (by rw [hc, htakes.size, byteLength_append])
    subst htext hc
    exact ⟨List.forall_mem_cons.2 ⟨.of_append .., hchunks⟩, hstop⟩

/-- The chunks end where the text does, or where no rule takes any of it. -/
def Ends (rules : List TokenRule) (rest : List Char) : Prop := rest = [] ∨ Stuck rules rest

theorem not_ends {r : TokenRule} {l : Lexeme} {taken : List Char}
    (hfirst : FirstTaker rules cs r l) (htakes : l.Takes taken cs) : ¬ Ends rules cs := by
  rintro (rfl | ⟨-, hnone⟩)
  · exact htakes.ne_nil (List.append_eq_nil_iff.1 htakes.text.symm).1
  · obtain ⟨before, after, hrules, -⟩ := hfirst.first
    have hnone := hnone r (by simp [hrules])
    rw [hfirst.takes] at hnone
    cases hnone

/-- There is one way to cut a text as far as that goes. -/
theorem unique {pieces' : List Chunk} {stop' : Nat} {rest' : List Char}
    (h : Cuts rules c cs pieces stop rest) (hend : Ends rules rest)
    (h' : Cuts rules c cs pieces' stop' rest') (hend' : Ends rules rest') :
    pieces = pieces' ∧ stop = stop' ∧ rest = rest' := by
  induction h generalizing pieces' with
  | nil =>
    cases h' with
    | nil => exact ⟨rfl, rfl, rfl⟩
    | cons hfirst htakes _ => exact absurd hend (not_ends hfirst htakes)
  | cons hfirst htakes _ ih =>
    cases h' with
    | nil => exact absurd hend' (not_ends hfirst htakes)
    | cons hfirst' _ hcuts' =>
      cases (firstTaking?_eq_some_iff.2 hfirst).symm.trans (firstTaking?_eq_some_iff.2 hfirst')
      obtain ⟨rfl, rfl, rfl⟩ := ih hend hcuts'
      exact ⟨rfl, rfl, rfl⟩

end Cuts

/-- How far a text is cut, and how that is told. -/
inductive Coverage.Tells (rules : List TokenRule) (stop : Nat) (rest : List Char) :
    Coverage → Prop where
  | complete : rest = [] → Tells rules stop rest .complete
  | stuckAt : Stuck rules rest → Tells rules stop rest (.stuckAt stop)

theorem Coverage.Tells.ends {coverage : Coverage} (h : coverage.Tells rules stop rest) :
    Cuts.Ends rules rest := by
  cases h with
  | complete h => exact .inl h
  | stuckAt h => exact .inr h

theorem cuts_chunksFrom {fuel : Nat} (hfuel : cs.length ≤ fuel) :
    ∃ stop rest, Cuts rules c cs (chunksFrom rules fuel c cs).1 stop rest ∧
      (chunksFrom rules fuel c cs).2.Tells rules stop rest := by
  induction fuel generalizing c cs with
  | zero =>
    obtain rfl := List.length_eq_zero_iff.1 (Nat.le_zero.1 hfuel)
    exact ⟨c, [], .nil, .complete rfl⟩
  | succ fuel ih =>
    cases cs with
    | nil => exact ⟨c, [], .nil, .complete rfl⟩
    | cons x cs =>
      cases hfirst : firstTaking? rules (x :: cs) with
      | none =>
        simp only [chunksFrom, hfirst]
        have hnone := firstTaking?_eq_none_iff.1 hfirst
        exact ⟨c, x :: cs, .nil, .stuckAt ⟨List.cons_ne_nil _ _, hnone⟩⟩
      | some taker =>
        obtain ⟨r, l⟩ := taker
        simp only [chunksFrom, hfirst]
        have hfirst := firstTaking?_eq_some_iff.1 hfirst
        obtain ⟨taken, htakes⟩ := TokenRule.take?_eq_some hfirst.takes
        have hshorter : l.rest.length ≤ fuel := by
          have hlength := congrArg List.length htakes.text
          have hpos := List.length_pos_iff.2 htakes.ne_nil
          rw [List.length_append] at hlength
          omega
        obtain ⟨stop, rest, hcuts, htells⟩ := ih hshorter
        exact ⟨stop, rest, .cons hfirst htakes hcuts, htells⟩

theorem cuts_chunks (rules : List TokenRule) (text : List Char) :
    ∃ stop rest, Cuts rules 0 text (chunks rules text).1 stop rest ∧
      (chunks rules text).2.Tells rules stop rest :=
  cuts_chunksFrom (Nat.le_refl _)

theorem Cuts.stop_eq (h : Cuts rules 0 text pieces stop []) : stop = byteLength text := by
  obtain ⟨taken, rfl, rfl⟩ := h.exists_taken
  rw [List.append_nil, Nat.zero_add]

end JayFrontEnd
