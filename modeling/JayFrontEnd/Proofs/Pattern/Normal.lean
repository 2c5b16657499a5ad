import JayFrontEnd.Proofs.Pattern.Building
import JayFrontEnd.Proofs.Pattern.Reading
import Mathlib.Data.List.Chain

/-!
# Patterns in normal form

`Pattern.ofSeq` nests the parts of a sequence to the right and joins texts that meet, so that taking
its result apart and putting it together again changes nothing. Every pattern that is read is of
this form, and so an assertion that is put before it leaves it as it is: the pattern of a rule is an
assertion and then the pattern itself.
-/

namespace JayFrontEnd.Pattern

variable {p q : Pattern} {ps : List Pattern}

/-- Taking the pattern apart and putting it together gives the pattern. -/
def Normal (p : Pattern) : Prop := ofSeq [p] = p

/-- A sequence cannot be taken apart further than into its parts. -/
theorem parts_of_mem_parts (h : q ∈ p.parts) : q.parts = [q] := by
  induction p with
  | empty => cases h
  | seq p₁ p₂ ih₁ ih₂ => exact (List.mem_append.1 h).elim ih₁ ih₂
  | _ =>
    rw [List.mem_singleton.1 h]
    rfl

theorem flatMap_parts (h : ∀ p ∈ ps, p.parts = [p]) : ps.flatMap parts = ps := by
  rw [List.flatMap_congr h]
  exact List.flatMap_singleton' ps

theorem parts_nest (h : ∀ p ∈ ps, p.parts = [p]) : (ofSeq.nest ps).parts = ps := by
  induction ps with
  | nil => rfl
  | cons p ps ih =>
    obtain ⟨hp, hps⟩ := List.forall_mem_cons.1 h
    cases ps with
    | nil => exact hp
    | cons q ps =>
      show p.parts ++ (ofSeq.nest (q :: ps)).parts = _
      rw [hp, ih hps, List.singleton_append]

/-! ## Texts that meet -/

def isText : Pattern → Bool
  | text _ => true
  | _ => false

theorem exists_of_isText (h : p.isText) : ∃ cs, p = text cs := by
  cases p with
  | text cs => exact ⟨cs, rfl⟩
  | _ => cases h

/-- No text follows a text. -/
def Apart (ps : List Pattern) : Prop := ps.IsChain fun p q => ¬ (p.isText ∧ q.isText)

theorem joinTexts_cons (p : Pattern) (ps : List Pattern) :
    joinTexts (p :: ps) = p :: joinTexts ps ∧
        (∀ q ∈ (joinTexts ps).head?, ¬ (p.isText ∧ q.isText)) ∨
      ∃ cs ds rest, p = text cs ∧ joinTexts ps = text ds :: rest ∧
        joinTexts (p :: ps) = text (cs ++ ds) :: rest := by
  generalize hjoined : joinTexts (p :: ps) = joined
  unfold joinTexts at hjoined
  split at hjoined
  · next cs ds rest hrest => exact .inr ⟨cs, ds, rest, rfl, hrest, hjoined.symm⟩
  · next hmeet =>
    refine .inl ⟨hjoined.symm, fun q hq ⟨hp, hq'⟩ => ?_⟩
    obtain ⟨cs, rfl⟩ := exists_of_isText hp
    obtain ⟨ds, rfl⟩ := exists_of_isText hq'
    obtain ⟨rest, hrest⟩ := List.head?_eq_some_iff.1 hq
    exact hmeet cs ds rest rfl hrest

theorem apart_joinTexts (ps : List Pattern) : Apart (joinTexts ps) := by
  induction ps with
  | nil => exact List.IsChain.nil
  | cons p ps ih =>
    rcases joinTexts_cons p ps with ⟨h, hhead⟩ | ⟨cs, ds, rest, -, hrest, h⟩
    · rw [h]
      exact List.isChain_cons.2 ⟨hhead, ih⟩
    · rw [hrest] at ih
      rw [h]
      -- the joined text is a text like the one whose place it takes
      exact List.isChain_cons.2 (List.isChain_cons.1 ih)

theorem joinTexts_eq_self (h : Apart ps) : joinTexts ps = ps := by
  induction ps with
  | nil => rfl
  | cons p ps ih =>
    obtain ⟨hhead, htail⟩ := List.isChain_cons.1 h
    have hps := ih htail
    rcases joinTexts_cons p ps with ⟨h, -⟩ | ⟨cs, ds, rest, rfl, hrest, -⟩
    · rw [h, hps]
    · rw [hps] at hrest
      exact absurd ⟨rfl, rfl⟩ (hhead (text ds) (by rw [hrest]; rfl))

theorem parts_of_mem_joinTexts (h : ∀ p ∈ ps, p.parts = [p]) :
    ∀ p ∈ joinTexts ps, p.parts = [p] := by
  induction ps with
  | nil => exact h
  | cons p ps ih =>
    obtain ⟨hp, hps⟩ := List.forall_mem_cons.1 h
    rcases joinTexts_cons p ps with ⟨h, -⟩ | ⟨cs, ds, rest, -, hrest, h⟩
    · rw [h]
      exact List.forall_mem_cons.2 ⟨hp, ih hps⟩
    · have hall := ih hps
      rw [hrest] at hall
      rw [h]
      exact List.forall_mem_cons.2 ⟨rfl, (List.forall_mem_cons.1 hall).2⟩

/-! ## What is built is in normal form -/

theorem normal_ofSeq (ps : List Pattern) : (ofSeq ps).Normal := by
  have hparts : ∀ p ∈ ps.flatMap parts, p.parts = [p] := by
    intro p hp
    obtain ⟨q, -, hq⟩ := List.mem_flatMap.1 hp
    exact parts_of_mem_parts hq
  have hjoined := parts_of_mem_joinTexts hparts
  rw [Normal, ofSeq, ofSeq, List.flatMap_singleton, parts_nest hjoined,
    joinTexts_eq_self (apart_joinTexts _)]

theorem normal_alt (p q : Pattern) : (alt p q).Normal := rfl

theorem normal_ofSet (k : CharSet) : (ofSet k).Normal := by
  unfold ofSet
  split <;> rfl

theorem branches_ne_nil (p : Pattern) : p.branches ≠ [] := by
  induction p with
  | alt p q ihp _ => exact fun h => ihp (List.append_eq_nil_iff.1 h).1
  | _ => exact List.cons_ne_nil _ _

theorem eq_of_branches (h : p.branches = [q]) : p = q := by
  cases p with
  | alt p₁ p₂ =>
    rcases List.append_eq_singleton_iff.1 h with ⟨h, -⟩ | ⟨-, h⟩
    · exact absurd h (branches_ne_nil p₁)
    · exact absurd h (branches_ne_nil p₂)
  | _ => exact List.singleton_inj.1 h

theorem normal_choice (h : ∀ p, ps = [p] → p.Normal) : (choice ps).Normal := by
  unfold choice
  split
  · exact normal_ofSet _
  · exact normal_ofSet _
  · cases ps with
    | nil => exact rfl
    | cons p ps =>
      cases ps with
      | nil => exact h p rfl
      | cons q ps => exact normal_alt _ _

theorem normal_ofAlt (h : ∀ p, ps = [p] → p.Normal) : (ofAlt ps).Normal := by
  unfold ofAlt
  dsimp only
  split
  · refine normal_choice fun q hq => ?_
    cases ps with
    | nil => cases hq
    | cons p ps =>
      rw [List.flatMap_cons] at hq
      rcases List.append_eq_singleton_iff.1 hq with ⟨hnil, -⟩ | ⟨hone, hnil⟩
      · exact absurd hnil (branches_ne_nil p)
      · cases ps with
        | nil => exact eq_of_branches hone ▸ h p rfl
        | cons r ps => exact absurd (List.append_eq_nil_iff.1 hnil).1 (branches_ne_nil r)
  · exact normal_ofSeq _

theorem normal_of_parse? {source : String} (h : parse? source = some p) : p.Normal := by
  obtain ⟨r, -, hfinish⟩ := Option.bind_eq_some_iff.1 h
  unfold Reader.finish at hfinish
  split at hfinish
  · cases hfinish
    refine normal_ofAlt fun q hq => ?_
    have hone : r.branch :: r.branches = [q] := by rw [← List.reverse_reverse (_ :: _), hq]; rfl
    obtain ⟨rfl, -⟩ := List.cons.inj hone
    exact normal_ofSeq _
  · cases hfinish

/-! ## An assertion before a pattern -/

/-- The pattern, asked only where the assertion holds. -/
def guarded (a : Assertion) (p : Pattern) : Pattern :=
  if p = empty then check a else seq (check a) p

theorem ofSeq_check_eq (a : Assertion) (p : Pattern) :
    ofSeq [check a, p] = ofSeq.nest (check a :: joinTexts p.parts) := by
  have hparts : [check a, p].flatMap parts = check a :: p.parts := by
    simp [parts]
  rw [ofSeq, hparts]
  rfl

theorem Normal.ofSeq_check (hp : p.Normal) (a : Assertion) : ofSeq [check a, p] = guarded a p := by
  have hnest : ofSeq.nest (joinTexts p.parts) = p := by
    simpa [Normal, ofSeq] using hp
  rw [ofSeq_check_eq, guarded]
  cases hparts : joinTexts p.parts with
  | nil =>
    rw [hparts] at hnest
    exact (if_pos hnest.symm).symm
  | cons q qs =>
    have hne : p ≠ empty := by
      rintro rfl
      cases hparts
    rw [if_neg hne, ← hnest, hparts]
    rfl

theorem Normal.ofAlt_check (hp : p.Normal) (a : Assertion) :
    ofAlt [ofSeq [check a, p]] = guarded a p := by
  have hofSeq := hp.ofSeq_check a
  rw [hofSeq, guarded]
  split
  · rfl
  · next hne =>
    rcases ofAlt_seq_check a p with h | h
    · exact h
    -- the parts are taken out and put back again
    · have hparts :
          (check a :: (p.parts ++ [empty])).flatMap parts = [check a, p].flatMap parts := by
        have hps : p.parts.flatMap parts = p.parts := flatMap_parts fun _ => parts_of_mem_parts
        simp [parts, hps]
      rw [h, ofSeq, hparts]
      exact hofSeq.trans (if_neg hne)

end JayFrontEnd.Pattern
