import JayFrontEnd.Proofs.Outcome
import JayFrontEnd.Proofs.Parsing.Respects

/-!
# What parsers ask for

A quiet parser asks for no modules. For the others, a parse that knows which modules there are does
what a parse does that does not look, as long as all modules are there that the latter has asked
for: what has been asked for stays so, also on the ways that were given up, so the modules that are
known at the end tell that none of its parts was stopped.
-/

namespace JayFrontEnd

/-! ## Parsers that ask for nothing -/

/-- The parser leaves the modules asked for as they are. -/
def Parser.Quiet {α : Type} (p : Parser α) : Prop := ∀ c s, (p c s).2.imports = s.imports

namespace Parser.Quiet

variable {α β : Type} {p q : Parser α} {c : Setting} {s t : ParseState}

theorem imports_eq {r : Except Failure α} (hp : p.Quiet) (h : p c s = (r, t)) :
    t.imports = s.imports := by
  rw [← hp c s, h]

theorem bind {f : α → Parser β} (hp : p.Quiet) (hf : ∀ a, (f a).Quiet) : (p >>= f).Quiet := by
  intro c s
  simp only [Bind.bind]
  split
  · next h => rw [hf, hp.imports_eq h]
  · next h => exact hp.imports_eq h

theorem restoring (hp : p.Quiet) : (Parser.restoring p).Quiet := by
  intro c s
  unfold Parser.restoring
  split
  · next h => exact (hp.imports_eq h :)
  · exact hp c s

theorem orElse (hp : p.Quiet) (hq : q.Quiet) : (Parser.orElse p q).Quiet := by
  intro c s
  unfold Parser.orElse
  split
  · next h =>
    split
    · next h' => exact (hq.imports_eq h').trans (hp.imports_eq h :)
    · exact (hq ..).trans (hp.imports_eq h :)
  · exact hp c s

theorem optional (hp : p.Quiet) : (Parser.optional p).Quiet := by
  intro c s
  unfold Parser.optional
  split
  all_goals
    next h => exact (hp.imports_eq h :)

theorem upTo (hp : p.Quiet) (n : Nat) : (Parser.upTo p n).Quiet := by
  induction n with
  | zero => exact fun _ _ => rfl
  | succ n ih =>
    intro c s
    unfold Parser.upTo
    split
    · next h =>
      split
      · exact (hp.imports_eq h :)
      · split
        all_goals
          next h' => exact (ih.imports_eq h').trans (hp.imports_eq h)
    · next h => exact (hp.imports_eq h :)
    · next h => exact (hp.imports_eq h :)

theorem repeated (hp : p.Quiet) : (Parser.repeated p).Quiet := fun c s => hp.upTo _ c s

theorem any (hp : p.Quiet) : (Parser.any p).Quiet := hp.repeated.bind fun _ _ _ => rfl

theorem many (hp : p.Quiet) : (Parser.many p).Quiet := by
  intro c s
  unfold Parser.many
  split
  all_goals
    next h => exact (hp.repeated.imports_eq h :)

theorem labelled (label : String) (hp : p.Quiet) : (Parser.labelled label p).Quiet := by
  intro c s
  unfold Parser.labelled
  split
  · next h => exact (hp.imports_eq h :)
  · exact hp c s

theorem wrapped {p : Parser Parsed} (kind : String) (hp : p.Quiet) :
    (Parser.wrapped kind p).Quiet := by
  intro c s
  unfold Parser.wrapped
  split
  all_goals
    next h => exact (hp.imports_eq h :)

theorem token (kind : String) : (Parser.token kind).Quiet := by
  intro c s
  unfold Parser.token
  split
  · rfl
  · split
    · rfl
    · split <;> rfl

theorem literal (text : String) : (Parser.literal text).Quiet := by
  intro c s
  unfold Parser.literal
  split
  · rfl
  · split <;> rfl

theorem pattern (regex : Regex) : (Parser.pattern regex).Quiet := by
  intro c s
  unfold Parser.pattern
  split
  · rfl
  · split <;> rfl

theorem respects (rule : String → Prop) :
    Respects { rule, module := False } fun p _ => p.Quiet where
  pure _ := fun _ _ => rfl
  bind := bind
  token := token
  literal := literal
  pattern := pattern
  restoring := restoring
  orElse := orElse
  optional := optional
  repeated := repeated
  many := many
  labelled := labelled
  wrapped := wrapped
  importModule h := h.elim
  fail _ := fun _ _ => rfl
  failAt _ _ _ _ := fun _ _ => rfl
  offset := fun _ _ => rfl
  peek := fun _ _ => rfl
  abort_left _ _ := fun _ _ => rfl
  abort_right _ hp := hp

end Parser.Quiet

/-! ## Parses that are not stopped -/

section Unhindered

variable (hasModule : String → Bool)

/-- From one state to the other nothing that was asked for is forgotten, and `P` holds if all
modules asked for are there. -/
structure ParseState.Locates (s t : ParseState) (P : Prop) : Prop where
  keeps : ∀ i ∈ s.imports, i ∈ t.imports
  holds : (∀ i ∈ t.imports, hasModule i.module = true) → P

/-- A run goes on as before with a locator that knows all modules it asks for. -/
def Parser.Unhindered {α : Type} (p : Parser α) : Prop :=
  ∀ {input s r t}, p ⟨input, none⟩ s = (r, t) →
    ParseState.Locates hasModule s t (p ⟨input, some hasModule⟩ s = (r, t))

variable {hasModule}

namespace ParseState.Locates

variable {s t u : ParseState} {P Q : Prop}

theorem of_eq (h : t.imports = s.imports) (hP : P) : s.Locates hasModule t P :=
  ⟨fun _ hi => h ▸ hi, fun _ => hP⟩

theorem mono (h : s.Locates hasModule t P) (hPQ : P → Q) : s.Locates hasModule t Q :=
  ⟨h.keeps, fun hall => hPQ (h.holds hall)⟩

theorem trans (h : s.Locates hasModule t P) (h' : t.Locates hasModule u Q) :
    s.Locates hasModule u (P ∧ Q) where
  keeps i hi := h'.keeps i (h.keeps i hi)
  holds hall := ⟨h.holds fun i hi => hall i (h'.keeps i hi), h'.holds hall⟩

theorem moveTo (h : s.Locates hasModule t P) (cursor : Nat) :
    s.Locates hasModule (t.moveTo cursor) P := ⟨h.keeps, h.holds⟩

theorem note (h : s.Locates hasModule t P) (e : ParseError) :
    s.Locates hasModule (t.note e) P := ⟨h.keeps, h.holds⟩

end ParseState.Locates

namespace Parser.Unhindered

variable {α β : Type} {p q : Parser α}

/-- A parser that neither asks for modules nor looks at which there are. -/
theorem of_eq (hp : p.Quiet)
    (hsame : ∀ input s, p ⟨input, some hasModule⟩ s = p ⟨input, none⟩ s) :
    p.Unhindered hasModule := by
  intro input s r t h
  exact .of_eq (hp.imports_eq h) ((hsame input s).trans h)

theorem bind {f : α → Parser β} (hp : p.Unhindered hasModule)
    (hf : ∀ a, (f a).Unhindered hasModule) : (p >>= f).Unhindered hasModule := by
  intro input s r t h
  simp only [Bind.bind] at h ⊢
  rcases hrun : p ⟨input, none⟩ s with ⟨e | a, u⟩ <;> simp only [hrun] at h
  · cases h
    exact (hp hrun).mono fun hs => by simp only [hs]
  · exact ((hp hrun).trans (hf a h)).mono fun ⟨hs, hs'⟩ => by simp only [hs, hs']

theorem restoring (hp : p.Unhindered hasModule) : (Parser.restoring p).Unhindered hasModule := by
  intro input s r t h
  unfold Parser.restoring at h ⊢
  rcases hrun : p ⟨input, none⟩ s with ⟨(e | f) | a, u⟩ <;> simp only [hrun] at h <;> cases h
  · exact ((hp hrun).moveTo _).mono fun hs => by simp only [hs]
  · exact (hp hrun).mono fun hs => by simp only [hs]
  · exact (hp hrun).mono fun hs => by simp only [hs]

theorem orElse (hp : p.Unhindered hasModule) (hq : q.Unhindered hasModule) :
    (Parser.orElse p q).Unhindered hasModule := by
  intro input s r t h
  unfold Parser.orElse at h ⊢
  rcases hrun : p ⟨input, none⟩ s with ⟨(e | f) | a, u⟩ <;> simp only [hrun] at h
  · rcases hrun' : q ⟨input, none⟩ (u.moveTo s.cursor) with ⟨(e' | f) | a, v⟩ <;>
      simp only [hrun'] at h <;> cases h
    all_goals
      exact (((hp hrun).moveTo _).trans (hq hrun')).mono fun ⟨hs, hs'⟩ => by simp only [hs, hs']
  all_goals
    cases h
    exact (hp hrun).mono fun hs => by simp only [hs]

theorem optional (hp : p.Unhindered hasModule) : (Parser.optional p).Unhindered hasModule := by
  intro input s r t h
  unfold Parser.optional at h ⊢
  rcases hrun : p ⟨input, none⟩ s with ⟨(e | f) | a, u⟩ <;> simp only [hrun] at h <;> cases h
  · exact ((hp hrun).moveTo _).mono fun hs => by simp only [hs]
  · exact (hp hrun).mono fun hs => by simp only [hs]
  · exact (hp hrun).mono fun hs => by simp only [hs]

theorem upTo (hp : p.Unhindered hasModule) (n : Nat) :
    (Parser.upTo p n).Unhindered hasModule := by
  induction n with
  | zero => exact of_eq (fun _ _ => rfl) fun _ _ => rfl
  | succ n ih =>
    intro input s r t h
    unfold Parser.upTo at h ⊢
    rcases hrun : p ⟨input, none⟩ s with ⟨(e | f) | a, u⟩ <;> simp only [hrun] at h
    · cases h
      exact ((hp hrun).moveTo _).mono fun hs => by simp only [hs]
    · cases h
      exact (hp hrun).mono fun hs => by simp only [hs]
    · by_cases hcursor : u.cursor = s.cursor
      · simp only [if_pos hcursor] at h
        cases h
        exact (hp hrun).mono fun hs => by simp only [hs, if_pos hcursor]
      · simp only [if_neg hcursor] at h
        rcases hrest : Parser.upTo p n ⟨input, none⟩ u with ⟨e | as, v⟩ <;>
          simp only [hrest] at h <;> cases h
        all_goals
          exact ((hp hrun).trans (ih hrest)).mono fun ⟨hs, hs'⟩ => by
            simp only [hs, if_neg hcursor, hs']

theorem repeated (hp : p.Unhindered hasModule) : (Parser.repeated p).Unhindered hasModule :=
  fun {input s _ _} h => hp.upTo (input.length - s.cursor + 1) h

theorem many (hp : p.Unhindered hasModule) : (Parser.many p).Unhindered hasModule := by
  intro input s r t h
  unfold Parser.many at h ⊢
  rcases hrun : Parser.repeated p ⟨input, none⟩ s with ⟨f | ⟨as, e⟩, u⟩ <;> simp only [hrun] at h
  · cases h
    exact (hp.repeated hrun).mono fun hs => by simp only [hs]
  · rcases as with _ | ⟨a, as⟩ <;> rcases e with _ | e <;> cases h
    all_goals exact (hp.repeated hrun).mono fun hs => by simp only [hs]

theorem labelled (label : String) (hp : p.Unhindered hasModule) :
    (Parser.labelled label p).Unhindered hasModule := by
  intro input s r t h
  unfold Parser.labelled at h ⊢
  rcases hrun : p ⟨input, none⟩ s with ⟨(e | f) | a, u⟩ <;> simp only [hrun] at h <;> cases h
  · refine ((hp hrun).note _).mono fun hs => ?_
    simp only [hs]
    rfl
  · exact (hp hrun).mono fun hs => by simp only [hs]
  · exact (hp hrun).mono fun hs => by simp only [hs]

theorem wrapped {p : Parser Parsed} (kind : String) (hp : p.Unhindered hasModule) :
    (Parser.wrapped kind p).Unhindered hasModule := by
  intro input s r t h
  unfold Parser.wrapped at h ⊢
  rcases hrun : p ⟨input, none⟩ s with ⟨e | (v | n), u⟩ <;> simp only [hrun] at h <;> cases h
  all_goals exact (hp hrun).mono fun hs => by simp only [hs]

theorem importModule (module : String) (position : Nat) :
    (Parser.importModule module position).Unhindered hasModule := by
  intro input s r t h
  have ht : (.ok (), s.require ⟨module, position⟩) = (r, t) := h
  cases ht
  unfold ParseState.require
  split
  · next hany =>
    refine ⟨fun _ hi => hi, fun hall => ?_⟩
    obtain ⟨i, hi, hmodule⟩ := List.any_eq_true.1 hany
    have hname : i.module = module := beq_iff_eq.1 hmodule
    have hthere : hasModule module = true := hname ▸ hall i hi
    simp only [Parser.importModule, Option.any_some, hthere, ParseState.require, if_pos hany]
    rfl
  · next hany =>
    refine ⟨fun _ hi => List.mem_append_left _ hi, fun hall => ?_⟩
    have hthere : hasModule module = true :=
      hall ⟨module, position⟩ (List.mem_append_right _ (List.mem_singleton_self _))
    simp only [Parser.importModule, Option.any_some, hthere, ParseState.require, if_neg hany]
    rfl

theorem token (kind : String) : (Parser.token kind).Unhindered hasModule :=
  of_eq (.token kind) fun _ _ => rfl

theorem literal (text : String) : (Parser.literal text).Unhindered hasModule :=
  of_eq (.literal text) fun _ _ => rfl

theorem pattern (regex : Regex) : (Parser.pattern regex).Unhindered hasModule :=
  of_eq (.pattern regex) fun _ _ => rfl

theorem respects : Respects {} fun p _ => p.Unhindered hasModule where
  pure _ := of_eq (fun _ _ => rfl) fun _ _ => rfl
  bind := bind
  token := token
  literal := literal
  pattern := pattern
  restoring := restoring
  orElse := orElse
  optional := optional
  repeated := repeated
  many := many
  labelled := labelled
  wrapped := wrapped
  importModule _ := importModule
  fail _ := of_eq (fun _ _ => rfl) fun _ _ => rfl
  failAt _ _ _ _ := of_eq (fun _ _ => rfl) fun _ _ => rfl
  offset := of_eq (fun _ _ => rfl) fun _ _ => rfl
  peek := of_eq (fun _ _ => rfl) fun _ _ => rfl
  abort_left _ _ := of_eq (fun _ _ => rfl) fun _ _ => rfl
  abort_right _ hp := hp

theorem applyWithin (g : Grammar) (fuel : Nat) (name : String) :
    (g.applyWithin fuel name).Unhindered hasModule :=
  respects.applyWithin (fun _ script _ _ => script.within_all) fuel fuel trivial

end Parser.Unhindered

/-- A parse that asks only for modules that are there is not stopped. -/
theorem Grammar.parse_eq_ok_of_located {g : Grammar} {input : Input} {out : ParseOutput}
    (h : g.parse ⟨input, none⟩ = .ok out)
    (hall : ∀ i ∈ out.imports, hasModule i.module = true) :
    g.parse ⟨input, some hasModule⟩ = .ok out := by
  have hrule : (g.rule g.root).Unhindered hasModule :=
    Parser.Unhindered.restoring fun hrun => Parser.Unhindered.applyWithin g _ _ hrun
  obtain ⟨⟨⟩, hvalid, h⟩ := Except.bind_eq_ok.1 h
  refine Except.bind_eq_ok.2 ⟨(), hvalid, ?_⟩
  rcases hrun : g.rule g.root ⟨input, none⟩ {} with ⟨(e | f) | tree, s⟩ <;> simp only [hrun] at h
  · cases h
  · cases h
  · by_cases hend : input.isEnd s.cursor = true
    · rw [if_pos hend] at h
      cases h
      simp only [(hrule hrun).holds hall, if_pos hend]
    · rw [if_neg hend] at h
      cases h

end Unhindered

end JayFrontEnd
