import JayFrontEnd.Proofs.Pattern.Span

/-!
# Patterns that are built

`Pattern.ofSeq` takes its patterns apart and joins texts that meet; it leads where its patterns lead
one after the other. A sequence that begins with an assertion is kept as it is by `Pattern.ofAlt`,
so that the assertion is asked first.
-/

namespace JayFrontEnd.Pattern

variable {p q : Pattern} {ps : List Pattern} {s t : Place} {a : Assertion}

theorem inTurn_parts : InTurn Reaches p.parts s t ↔ p.Reaches s t := by
  induction p generalizing s t with
  | empty => simp [parts, InTurn]
  | seq p q ihp ihq => simp only [parts, inTurn_append, ihp, ihq, reaches_seq]
  | _ => exact inTurn_singleton

theorem inTurn_flatMap_parts :
    InTurn Reaches (ps.flatMap parts) s t ↔ InTurn Reaches ps s t := by
  induction ps generalizing s with
  | nil => rfl
  | cons p ps ih => simp only [List.flatMap_cons, inTurn_append, inTurn_parts, ih, InTurn]

/-- Two texts that follow one another are gone past like the one they make. -/
theorem inTurn_texts {cs ds : List Char} : InTurn Reaches (text (cs ++ ds) :: ps) s t ↔
    InTurn Reaches (text cs :: text ds :: ps) s t := by
  simp only [InTurn, reaches_text, Place.afterText?_append, Option.bind_eq_some_iff]
  constructor
  · rintro ⟨v, ⟨u, hu, hv⟩, h⟩
    exact ⟨u, hu, v, hv, h⟩
  · rintro ⟨u, hu, v, hv, h⟩
    exact ⟨v, ⟨u, hu, hv⟩, h⟩

theorem inTurn_joinTexts : InTurn Reaches (joinTexts ps) s t ↔ InTurn Reaches ps s t := by
  induction ps generalizing s with
  | nil => rfl
  | cons p ps ih =>
    unfold joinTexts
    split
    · next cs ds rest hjoin =>
      rw [inTurn_texts]
      simp only [InTurn, ← ih, hjoin]
    · simp only [InTurn, ih]

theorem reaches_nest : (ofSeq.nest ps).Reaches s t ↔ InTurn Reaches ps s t := by
  induction ps generalizing s with
  | nil => exact reaches_empty
  | cons p ps ih =>
    cases ps with
    | nil => exact inTurn_singleton.symm
    | cons q ps =>
      show (seq p (ofSeq.nest (q :: ps))).Reaches s t ↔ _
      simp only [reaches_seq, ih, InTurn]

theorem reaches_ofSeq : (ofSeq ps).Reaches s t ↔ InTurn Reaches ps s t := by
  rw [ofSeq, reaches_nest, inTurn_joinTexts, inTurn_flatMap_parts]

/-! ## Sequences that begin with an assertion -/

theorem ofSeq_check (a : Assertion) (ps : List Pattern) :
    ofSeq (check a :: ps) = check a ∨ ∃ q, ofSeq (check a :: ps) = seq (check a) q := by
  have hjoin : joinTexts ((check a :: ps).flatMap parts) =
      check a :: joinTexts (ps.flatMap parts) := rfl
  rw [ofSeq, hjoin]
  cases joinTexts (ps.flatMap parts) with
  | nil => exact .inl rfl
  | cons q qs => exact .inr ⟨_, rfl⟩

/-- A choice of one sequence has the whole of it as its common beginning. -/
theorem ofAlt_seq_check (a : Assertion) (q : Pattern) :
    ofAlt [seq (check a) q] = seq (check a) q ∨
      ofAlt [seq (check a) q] = ofSeq (check a :: (q.parts ++ [empty])) := by
  cases hq : q.parts with
  | nil =>
    left
    simp [ofAlt, branches, parts, hq, sharedStart, choice, char?, set?, choice.nest]
  | cons r rs =>
    right
    simp [ofAlt, branches, parts, hq, sharedStart, choice, char?, set?, choice.nest, ofSeq,
      joinTexts, ofSeq.nest]

/-- A choice of one sequence begins with the assertion too, and leads to the same places. -/
theorem ofAlt_ofSeq_check (a : Assertion) (ps : List Pattern) :
    ∃ qs, ofAlt [ofSeq (check a :: ps)] = ofSeq (check a :: qs) ∧
      ∀ s t, (ofSeq (check a :: qs)).Reaches s t ↔ (ofSeq (check a :: ps)).Reaches s t := by
  rcases ofSeq_check a ps with h | ⟨q, h⟩
  · have hsame : ofAlt [check a] = check a := rfl
    exact ⟨ps, by rw [h, hsame], fun _ _ => .rfl⟩
  · rcases ofAlt_seq_check a q with hsame | hagain
    · exact ⟨ps, by rw [h, hsame], fun _ _ => .rfl⟩
    · refine ⟨q.parts ++ [empty], by rw [h, hagain], fun s t => ?_⟩
      rw [h, reaches_ofSeq]
      simp [InTurn, inTurn_append, inTurn_parts]

/-- The assertion is asked where the choice is tried, and the rest goes on from there. -/
theorem reaches_ofAlt_check :
    (ofAlt [ofSeq [check a, p]]).Reaches s t ↔ a.holds s = true ∧ p.Reaches s t := by
  obtain ⟨qs, h, hsame⟩ := ofAlt_ofSeq_check a [p]
  rw [h, hsame, reaches_ofSeq]
  simp [InTurn, and_assoc]

theorem anchored_ofAlt_check (p : Pattern) :
    (ofAlt [ofSeq [check .textStart, p]]).anchored = true := by
  obtain ⟨qs, h, -⟩ := ofAlt_ofSeq_check .textStart [p]
  rw [h]
  rcases ofSeq_check .textStart qs with h | ⟨q, h⟩ <;> rw [h] <;> rfl

/-- An anchored pattern leads on from the start of a text only. -/
theorem Reaches.before_eq_none (hp : p.anchored = true) (h : p.Reaches s t) : s.before = none := by
  induction p generalizing s t with
  | empty | text | one => cases hp
  | check a =>
    obtain ⟨ha, -⟩ := reaches_check.1 h
    cases a with
    | textStart => exact Option.isNone_iff_eq_none.1 ha
    | _ => cases hp
  | group i p ih => exact ih hp (reaches_group.1 h)
  | seq p q ihp _ =>
    obtain ⟨u, hsu, -⟩ := reaches_seq.1 h
    exact ihp hp hsu
  | alt p q ihp ihq =>
    obtain ⟨hp, hq⟩ := Bool.and_eq_true_iff.1 hp
    rcases reaches_alt.1 h with h | h
    · exact ihp hp h
    · exact ihq hq h
  | repeated least most greedy p ih =>
    obtain ⟨hleast, hp⟩ := Bool.and_eq_true_iff.1 hp
    obtain ⟨count, hcount, -, hturns⟩ := reaches_repeated.1 h
    cases count with
    | zero => exact absurd (Nat.le_zero.1 hcount) (bne_iff_ne.1 hleast)
    | succ count =>
      obtain ⟨u, hsu, -⟩ := hturns
      exact ih hp hsu

end JayFrontEnd.Pattern
