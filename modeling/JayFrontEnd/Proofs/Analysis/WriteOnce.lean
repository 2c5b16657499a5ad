import JayFrontEnd.Proofs.Analysis.Plan
import JayFrontEnd.Proofs.Scope.Extension

/-!
# Symbols are written once

What has been done with an analyzer, a list of deeds, tells what its symbols are: those that were
declared, in that order, where a variable that was declared without a type has the one of the first
typed assignment that found it (`symbolsOf`). `Reflects` ties an analyzer to its past and is what a
deed keeps, since every deed changes the symbols by one law (`Deed.symbols_after`). What a deed
comes to, `Deed.Follows`, is read off its past alone.
-/

namespace JayFrontEnd

/-- The kind once the type of an untyped variable is `type?`. -/
def SymbolKind.settled (type? : Option PrimitiveType) : SymbolKind → SymbolKind
  | .variable none => .variable type?
  | kind => kind

def Symbol.settled (type? : Option PrimitiveType) (y : Symbol) : Symbol :=
  { y with kind := y.kind.settled type? }

@[simp] theorem SymbolKind.settled_none (k : SymbolKind) : k.settled none = k := by
  unfold settled
  split <;> rfl

@[simp] theorem Symbol.settled_none (y : Symbol) : y.settled none = y := by
  simp [settled]

theorem Symbol.settled_settled (y : Symbol) (a b : Option PrimitiveType) :
    (y.settled a).settled b = y.settled (a.or b) := by
  obtain ⟨name, kind, position, scope⟩ := y
  rcases kind with (_ | t) | _
  · cases a <;> rfl
  · rfl
  · rfl

/-- How a position of a source is told in a message. -/
def Source.told (s : Source) (offset : Nat) : String :=
  match s.position? offset with
  | some p => p.link
  | none => s!"offset {offset}"

namespace Analyzer

open ScopeTree

/-! ## Deeds -/

/-- Whether an operation is one of the analyzer's own; the others go to the tree directly. -/
def Operation.isOwn : Operation → Bool
  | tree _ => false
  | _ => true

theorem Operation.fits_of_isOwn {op : Operation} (h : op.isOwn = true) (a : Analyzer) :
    op.Fits a := by
  cases op with
  | tree op => cases h
  | _ => trivial

/-- An operation that is performed, and the analyzer it is performed on. -/
structure Deed where
  before : Analyzer
  op : Operation

namespace Deed

def outcome (d : Deed) : Except Fault Unit := (d.op.perform d.before).1

def after (d : Deed) : Analyzer := (d.op.perform d.before).2

def declared? (d : Deed) : Option Symbol :=
  match d.op, d.outcome with
  | .register name kind position, .ok () => some { name, kind, position, scope := d.before.current }
  | _, _ => none

/-- The type that is assigned to a symbol, if that is the nearest one of the name. -/
def assigned? (d : Deed) (i : SymbolId) : Option PrimitiveType :=
  match d.op with
  | .assign name type _ => if (d.before.visible? name).map (·.1) = some i then type else none
  | _ => none

end Deed

/-- Everything that is done by a plan, also in new scopes, which are entered first. -/
def Plan.deeds : Plan → Analyzer → List Deed
  | done _, _ => []
  | step op next, a =>
    let (outcome, b) := op.perform a
    ⟨a, op⟩ :: (next outcome b).deeds b
  | inScope name kind body next, a =>
    let (outcome, b) := a.inScope name kind body.run
    ⟨a, .enter name kind⟩ :: body.deeds (a.enterScope name kind) ++ (next outcome b).deeds b

def declaredIn (past : List Deed) : List Symbol := past.filterMap Deed.declared?

/-- The type that was assigned to a symbol first. -/
def firstType? (past : List Deed) (i : SymbolId) : Option PrimitiveType :=
  past.findSome? (·.assigned? i)

def symbolsOf (past : List Deed) : List Symbol :=
  (declaredIn past).mapIdx fun i y => y.settled (firstType? past i)

def firstDeclaration? (past : List Deed) (s : ScopeId) (name : String) : Option Symbol :=
  (declaredIn past).find? fun y => y.scope == s && y.name == name

/-- What a deed comes to, as its past tells. -/
structure Deed.Follows (past : List Deed) (d : Deed) : Prop where
  symbols : d.before.scopes.symbols = symbolsOf past
  /-- The symbol that an assignment finds is the one of the nearest scope that declares the name. -/
  nearest : ∀ {name i y}, d.before.visible? name = some (i, y) ↔
    ∃ s, d.before.scopes.Binds name d.before.current s ∧ d.before.scopes.symbol? i = some y ∧
      y.name = name ∧ y.scope = s
  /-- A name is refused if and only if the current scope has declared it. -/
  register : ∀ {name kind position}, d.op = .register name kind position →
    d.outcome = match firstDeclaration? past d.before.current name with
      | none => .ok ()
      | some y => .error (.duplicateSymbol name position y.position
          (d.before.source.told y.position))
  /-- A value is refused if and only if its type is known, and another one than the known type of
  the nearest variable. -/
  assign : ∀ {name type position fault}, d.op = .assign name type position →
    (d.outcome = .error fault ↔ ∃ found expected i y, type = some found ∧
      d.before.visible? name = some (i, y) ∧ y.kind = .variable (some expected) ∧
      expected ≠ found ∧ fault = .typeMismatch expected.name found.name position)
  /-- An assignment changes nothing, or the unknown type of the nearest variable. -/
  assigned : ∀ {name type position}, d.op = .assign name type position →
    d.after = d.before ∨ ∃ found i y, type = some found ∧
      d.before.visible? name = some (i, y) ∧ y.kind = .variable none ∧
      d.after = { d.before with scopes := d.before.scopes.setKind i (.variable (some found)) }
  /-- A deed that fails changes nothing. -/
  refused : ∀ {fault}, d.outcome = .error fault → d.after = d.before

/-! ## What a deed changes -/

variable {a b : Analyzer} {past : List Deed} {d : Deed} {op : Operation}

theorem visible?_lt {name : String} {i : SymbolId} {y : Symbol}
    (h : a.visible? name = some (i, y)) : i < a.scopes.symbols.length :=
  (List.getElem?_eq_some_iff.1 (visible?_eq_some_iff.1 h).2).1

theorem Deed.assigned?_eq_none {i : SymbolId} (hi : d.before.scopes.symbols.length ≤ i) :
    d.assigned? i = none := by
  unfold assigned?
  split
  · refine if_neg fun hc => ?_
    obtain ⟨⟨j, y⟩, hj, rfl⟩ := Option.map_eq_some_iff.1 hc
    exact absurd (visible?_lt hj) (Nat.not_lt_of_le hi)
  · rfl

/-- An assignment settles the kind of the nearest symbol, and nothing else. -/
theorem symbols_of_assign {name : String} {type : Option PrimitiveType} {position : Nat} :
    (a.attempt (a.assign name type position)).2.scopes.symbols =
      a.scopes.symbols.mapIdx fun i y =>
        y.settled (if (a.visible? name).map (·.1) = some i then type else none) := by
  refine List.ext_getElem? fun j => ?_
  rw [List.getElem?_mapIdx]
  unfold Analyzer.assign
  cases type with
  | none => simp [attempt]
  | some found =>
    cases hv : a.visible? name with
    | none => simp [attempt]
    | some v =>
      obtain ⟨i, n, kind, p, s⟩ := v
      have hi : a.scopes.symbols[i]? = some ⟨n, kind, p, s⟩ := (visible?_eq_some_iff.1 hv).2
      by_cases hj : i = j
      · subst hj
        rcases kind with (_ | expected) | _
        · simp [attempt, setKind, hi, Symbol.settled, SymbolKind.settled]
        · by_cases he : found = expected <;>
            simp [attempt, he, hi, Symbol.settled, SymbolKind.settled]
        · simp [attempt, hi, Symbol.settled, SymbolKind.settled]
      · rcases kind with (_ | expected) | _
        · simp [attempt, setKind, hj]
        · by_cases he : found = expected <;> simp [attempt, he, hj]
        · simp [attempt, hj]

theorem Deed.mapIdx_assigned? (hd : ∀ i, d.assigned? i = none) (ys : List Symbol) :
    (ys.mapIdx fun i y => y.settled (d.assigned? i)) = ys := by
  refine List.ext_getElem? fun i => ?_
  simp [hd]

theorem Deed.symbols_after (hop : d.op.isOwn = true) :
    d.after.scopes.symbols =
      (d.before.scopes.symbols.mapIdx fun i y => y.settled (d.assigned? i)) ++
        d.declared?.toList := by
  obtain ⟨a, op⟩ := d
  cases op with
  | assign name type position => exact symbols_of_assign.trans (List.append_nil _).symm
  | tree op => cases hop
  | register name kind position =>
    rw [mapIdx_assigned? fun _ => rfl]
    simp only [after, declared?, outcome, Operation.perform]
    cases hr : a.register name kind position with
    | ok b =>
      obtain ⟨i, scopes, hdefine, rfl⟩ := register_eq_ok hr
      exact symbols_of_define hdefine
    | error fault => exact (List.append_nil _).symm
  | exit =>
    rw [mapIdx_assigned? fun _ => rfl]
    show a.exitScope.scopes.symbols = a.scopes.symbols ++ []
    rw [List.append_nil, exitScope]
    split <;> rfl
  | enter name kind =>
    rw [mapIdx_assigned? fun _ => rfl]
    exact (List.append_nil _).symm
  | expectLocal name position =>
    rw [mapIdx_assigned? fun _ => rfl]
    exact (SameDeclarations.addLocalRef ..).symbols.trans (List.append_nil _).symm
  | expectRemote module name position =>
    rw [mapIdx_assigned? fun _ => rfl]
    exact (SameDeclarations.addRemoteRef ..).symbols.trans (List.append_nil _).symm

theorem Deed.extends_after (hop : d.op.isOwn = true) :
    d.before.scopes.ExtendsTo d.after.scopes := by
  obtain ⟨a, op⟩ := d
  cases op with
  | enter name kind => exact .addChild ..
  | exit =>
    show a.scopes.ExtendsTo a.exitScope.scopes
    unfold exitScope
    split <;> exact .refl _
  | register name kind position =>
    simp only [after, Operation.perform]
    cases hr : a.register name kind position with
    | ok b =>
      obtain ⟨i, scopes, hdefine, rfl⟩ := register_eq_ok hr
      exact .define hdefine
    | error fault => exact .refl _
  | assign name type position =>
    simp only [after, Operation.perform]
    cases ha : a.assign name type position with
    | ok b =>
      obtain rfl | ⟨t, i, y, -, hv, hy, rfl⟩ := assign_eq_ok ha
      · exact .refl _
      · exact .setKind (visible?_eq_some_iff.1 hv).2 hy t
    | error fault => exact .refl _
  | expectLocal name position => exact .addLocalRef
  | expectRemote module name position => exact .addRemoteRef
  | tree op => cases hop

theorem attempt_fst_eq_error_iff {x : Except Fault Analyzer} {fault : Fault} :
    (a.attempt x).1 = .error fault ↔ x = .error fault := by
  cases x <;> simp [attempt]

theorem attempt_snd_of_error {x : Except Fault Analyzer} {fault : Fault}
    (h : (a.attempt x).1 = .error fault) : (a.attempt x).2 = a := by
  rw [attempt_fst_eq_error_iff.1 h]
  rfl

theorem Deed.after_eq_before (d : Deed) {fault : Fault} (h : d.outcome = .error fault) :
    d.after = d.before := by
  obtain ⟨a, op⟩ := d
  cases op with
  | register name kind position => exact attempt_snd_of_error h
  | assign name type position => exact attempt_snd_of_error h
  | _ => cases h

theorem assign_eq_error_iff {name : String} {type : Option PrimitiveType} {position : Nat}
    {fault : Fault} :
    a.assign name type position = .error fault ↔ ∃ found expected i y, type = some found ∧
      a.visible? name = some (i, y) ∧ y.kind = .variable (some expected) ∧ expected ≠ found ∧
      fault = .typeMismatch expected.name found.name position := by
  constructor
  · intro h
    unfold Analyzer.assign at h
    split at h
    · cases h
    · next found i n expected p s hv =>
      split at h
      · cases h
      · next hne =>
        cases h
        exact ⟨found, expected, i, _, rfl, hv, rfl, Ne.symm hne, rfl⟩
    · cases h
  · rintro ⟨found, expected, i, ⟨n, k, p, s⟩, rfl, hv, rfl, hne, rfl⟩
    simp only [Analyzer.assign, hv, if_neg (Ne.symm hne)]

theorem after_assign (a : Analyzer) (name : String) (type : Option PrimitiveType) (position : Nat) :
    let d : Deed := ⟨a, .assign name type position⟩
    d.after = a ∨ ∃ found i y, type = some found ∧ a.visible? name = some (i, y) ∧
      y.kind = .variable none ∧
      d.after = { a with scopes := a.scopes.setKind i (.variable (some found)) } := by
  simp only [Deed.after, Operation.perform]
  cases h : a.assign name type position with
  | ok b =>
    obtain rfl | ⟨found, i, y, htype, hv, hy, rfl⟩ := assign_eq_ok h
    · exact .inl rfl
    · exact .inr ⟨found, i, y, htype, hv, hy, rfl⟩
  | error fault => exact .inl rfl

/-- The nearest symbol of a name is that of the nearest scope that declares it. -/
theorem visible?_eq_some_iff_binds (h : a.scopes.WellFormed) {name : String} {i : SymbolId}
    {y : Symbol} :
    a.visible? name = some (i, y) ↔ ∃ s, a.scopes.Binds name a.current s ∧
      a.scopes.symbol? i = some y ∧ y.name = name ∧ y.scope = s := by
  rw [visible?_eq_some_iff, h.lookup?_eq_some_iff]
  constructor
  · rintro ⟨⟨s, hs, hi⟩, hy⟩
    obtain ⟨z, hz, hname, hscope⟩ := h.declared?_iff.1 hi
    cases hy.symm.trans hz
    exact ⟨s, hs, hy, hname, hscope⟩
  · rintro ⟨s, hs, hy, hname, hscope⟩
    exact ⟨⟨s, hs, h.declared?_iff.2 ⟨y, hy, hname, hscope⟩⟩, hy⟩

/-! ## The past tells the symbols -/

/-- What an analyzer has from its past. -/
structure Reflects (past : List Deed) (a : Analyzer) : Prop where
  sound : a.Sound
  symbols : a.scopes.symbols = symbolsOf past
  /-- What is not there yet has been assigned nothing. -/
  unassigned : ∀ {i}, a.scopes.symbols.length ≤ i → firstType? past i = none

namespace Reflects

theorem ofModule (module : String) (source : Source) :
    Reflects [] (Analyzer.ofModule module source) where
  sound := .ofModule module source
  symbols := rfl
  unassigned _ := rfl

theorem symbol?_eq (h : Reflects past a) (i : SymbolId) :
    a.scopes.symbol? i = (declaredIn past)[i]?.map (·.settled (firstType? past i)) := by
  rw [ScopeTree.symbol?, h.symbols, symbolsOf, List.getElem?_mapIdx]

theorem length_declaredIn (h : Reflects past a) :
    (declaredIn past).length = a.scopes.symbols.length := by
  rw [h.symbols, symbolsOf, List.length_mapIdx]

/-- The step lemma. -/
theorem after (h : Reflects past d.before) (hop : d.op.isOwn = true) :
    Reflects (past ++ [d]) d.after := by
  have hdeclared : declaredIn (past ++ [d]) = declaredIn past ++ d.declared?.toList := by
    rw [declaredIn, List.filterMap_append]
    rfl
  have htype : ∀ i, firstType? (past ++ [d]) i = (firstType? past i).or (d.assigned? i) := by
    intro i
    rw [firstType?, List.findSome?_append]
    congr 1
    cases hd : d.assigned? i <;> simp [hd]
  have hnone : ∀ {i}, d.before.scopes.symbols.length ≤ i → firstType? (past ++ [d]) i = none := by
    intro i hi
    rw [htype, h.unassigned hi, Deed.assigned?_eq_none hi, Option.none_or]
  refine ⟨(h.sound.perform (Operation.fits_of_isOwn hop _)).sound, ?_, fun hi => hnone ?_⟩
  · rw [Deed.symbols_after hop, h.symbols, symbolsOf, symbolsOf, hdeclared, List.mapIdx_append,
      List.mapIdx_mapIdx]
    congr 1
    · refine congrArg (List.mapIdx · _) (funext fun i => funext fun y => ?_)
      rw [Function.comp_apply, Symbol.settled_settled, htype]
    · cases d.declared? with
      | none => rfl
      | some y =>
        have hlt := hnone (Nat.le_of_eq h.length_declaredIn.symm)
        simp [hlt]
  · rw [Deed.symbols_after hop, List.length_append, List.length_mapIdx] at hi
    exact Nat.le_trans (Nat.le_add_right ..) hi

/-- A name is declared in a scope if a symbol of the past says so, which is then the first one. -/
theorem declared?_eq (h : Reflects past a) (s : ScopeId) (name : String) :
    match firstDeclaration? past s name with
    | none => a.scopes.declared? s name = none
    | some y => ∃ i t, a.scopes.declared? s name = some i ∧
        a.scopes.symbol? i = some (y.settled t) := by
  split
  · next hnone =>
    refine Option.eq_none_iff_forall_ne_some.2 fun i hi => ?_
    obtain ⟨z, hz, hname, hscope⟩ := h.sound.scopes.wellFormed.declared?_iff.1 hi
    rw [h.symbol?_eq] at hz
    obtain ⟨y, hy, rfl⟩ := Option.map_eq_some_iff.1 hz
    have := List.find?_eq_none.1 hnone y (List.mem_of_getElem? hy)
    exact this (by simp [← hname, ← hscope, Symbol.settled])
  · next y hy =>
    obtain ⟨i, hi⟩ := List.getElem?_of_mem (List.mem_of_find?_eq_some hy)
    have hsymbol : a.scopes.symbol? i = some (y.settled (firstType? past i)) := by
      rw [h.symbol?_eq, hi]
      rfl
    have hfits := List.find?_some hy
    rw [Bool.and_eq_true, beq_iff_eq, beq_iff_eq] at hfits
    exact ⟨i, _, h.sound.scopes.wellFormed.declared?_iff.2 ⟨_, hsymbol, hfits.2, hfits.1⟩, hsymbol⟩

theorem outcome_register (h : Reflects past a) (name : String) (kind : SymbolKind)
    (position : Nat) : (Deed.mk a (.register name kind position)).outcome =
      match firstDeclaration? past a.current name with
      | none => .ok ()
      | some y =>
        .error (.duplicateSymbol name position y.position (a.source.told y.position)) := by
  have hdeclared := h.declared?_eq a.current name
  simp only [Deed.outcome, Operation.perform, Analyzer.register, define]
  split at hdeclared
  · next hnone => rw [hdeclared]; rfl
  · next y hy =>
    obtain ⟨i, type?, hi, hsymbol⟩ := hdeclared
    rw [hi]
    simp only [attempt, duplicate, hsymbol, Option.map_some, Option.getD_some]
    rfl

theorem follows (h : Reflects past d.before) : d.Follows past where
  symbols := h.symbols
  nearest := visible?_eq_some_iff_binds h.sound.scopes.wellFormed
  register hop := by
    obtain ⟨a, op⟩ := d
    cases hop
    exact h.outcome_register ..
  assign hop := by
    obtain ⟨a, op⟩ := d
    cases hop
    exact attempt_fst_eq_error_iff.trans assign_eq_error_iff
  assigned hop := by
    obtain ⟨a, op⟩ := d
    cases hop
    exact after_assign ..
  refused := d.after_eq_before

/-- The past does not tell where the analyzer stands. -/
theorem backTo (h : Reflects past a) {s : ScopeId} (hs : s < a.scopes.scopes.length) :
    Reflects past { a with current := s } :=
  ⟨⟨h.sound.scopes, hs⟩, h.symbols, h.unassigned⟩

end Reflects

/-! ## Runs -/

/-- Each deed is as `P` says, given the deeds before it. -/
def Each (P : List Deed → Deed → Prop) (past ds : List Deed) : Prop :=
  ∀ i d, ds[i]? = some d → P (past ++ ds.take i) d

section Each

variable {P : List Deed → Deed → Prop} {ds es : List Deed}

theorem Each.cons (hd : P past d) (hds : Each P (past ++ [d]) ds) : Each P past (d :: ds)
  | 0, e, he => by
    cases he
    rwa [List.take_zero, List.append_nil]
  | i + 1, e, he => by
    rw [List.take_succ_cons, List.append_cons]
    exact hds i e he

theorem Each.append (hds : Each P past ds) (hes : Each P (past ++ ds) es) :
    Each P past (ds ++ es) := by
  intro i d hd
  rw [List.take_append]
  rcases Nat.lt_or_ge i ds.length with hi | hi
  · rw [List.getElem?_append_left hi] at hd
    rw [Nat.sub_eq_zero_of_le (Nat.le_of_lt hi), List.take_zero, List.append_nil]
    exact hds i d hd
  · rw [List.getElem?_append_right hi] at hd
    rw [List.take_of_length_le hi, ← List.append_assoc]
    exact hes _ d hd

end Each

namespace Plan

def IsOwn (p : Plan) (a : Analyzer) : Prop := ∀ d ∈ p.deeds a, d.op.isOwn = true

theorem IsOwn.fits {p : Plan} (h : p.IsOwn a) : p.Fits a := by
  induction p generalizing a with
  | done outcome => trivial
  | step op next ih =>
    obtain ⟨hop, hnext⟩ := List.forall_mem_cons.1 h
    exact ⟨Operation.fits_of_isOwn hop a, ih _ _ hnext⟩
  | inScope name kind body next ihBody ih =>
    obtain ⟨hbody, hnext⟩ := List.forall_mem_append.1 h
    exact ⟨ihBody (List.forall_mem_cons.1 hbody).2, ih _ _ hnext⟩

theorem mem_moments (p : Plan) (a : Analyzer) : a ∈ p.moments a := by
  cases p <;> simp [moments]

theorem mem_moments_of_mem_deeds (p : Plan) (a : Analyzer) :
    ∀ d ∈ p.deeds a, d.before ∈ p.moments a ∧ d.after ∈ p.moments a := by
  induction p generalizing a with
  | done outcome => exact nofun
  | step op next ih =>
    refine List.forall_mem_cons.2 ⟨⟨List.mem_cons_self, ?_⟩, fun d hd => ?_⟩
    · exact List.mem_cons_of_mem _ (mem_moments ..)
    · obtain ⟨hbefore, hafter⟩ := ih _ _ _ d hd
      exact ⟨List.mem_cons_of_mem _ hbefore, List.mem_cons_of_mem _ hafter⟩
  | inScope name kind body next ihBody ih =>
    refine List.forall_mem_append.2 ⟨List.forall_mem_cons.2 ⟨⟨?_, ?_⟩, fun d hd => ?_⟩,
      fun d hd => ?_⟩
    · exact List.mem_append_left _ List.mem_cons_self
    · exact List.mem_append_left _ (List.mem_cons_of_mem _ (mem_moments ..))
    · obtain ⟨hbefore, hafter⟩ := ihBody _ d hd
      exact ⟨List.mem_append_left _ (List.mem_cons_of_mem _ hbefore),
        List.mem_append_left _ (List.mem_cons_of_mem _ hafter)⟩
    · obtain ⟨hbefore, hafter⟩ := ih _ _ _ d hd
      exact ⟨List.mem_append_right _ hbefore, List.mem_append_right _ hafter⟩

/-- Everything that comes to be in a run lies between its start and its end. -/
theorem extends_moments {p : Plan} (h : p.IsOwn a) :
    (∀ b ∈ p.moments a, a.scopes.ExtendsTo b.scopes ∧ b.scopes.ExtendsTo (p.run a).2.scopes) ∧
      (p.moments a).Pairwise fun b c => b.scopes.ExtendsTo c.scopes := by
  induction p generalizing a with
  | done outcome =>
    exact ⟨List.forall_mem_singleton.2 ⟨.refl _, .refl _⟩, List.pairwise_singleton ..⟩
  | step op next ih =>
    obtain ⟨hop, hnext⟩ := List.forall_mem_cons.1 h
    have hstep := Deed.extends_after (d := ⟨a, op⟩) hop
    obtain ⟨hmoments, hpairs⟩ := ih _ _ hnext
    have hend := (hmoments _ (mem_moments ..)).2
    refine ⟨List.forall_mem_cons.2 ⟨⟨.refl _, hstep.trans hend⟩, fun b hb => ?_⟩,
      List.pairwise_cons.2 ⟨fun b hb => ?_, hpairs⟩⟩
    · exact ⟨hstep.trans (hmoments b hb).1, (hmoments b hb).2⟩
    · exact hstep.trans (hmoments b hb).1
  | inScope name kind body next ihBody ih =>
    obtain ⟨hbody, hnext⟩ := List.forall_mem_append.1 h
    obtain ⟨hinner, hinnerPairs⟩ := ihBody (List.forall_mem_cons.1 hbody).2
    obtain ⟨hmoments, hpairs⟩ := ih _ _ hnext
    have henter : a.scopes.ExtendsTo (a.enterScope name kind).scopes := .addChild ..
    have hend := (hmoments _ (mem_moments ..)).2
    have hback := henter.trans (hinner _ (mem_moments ..)).2
    refine ⟨List.forall_mem_append.2 ⟨List.forall_mem_cons.2 ⟨⟨.refl _, hback.trans hend⟩,
      fun b hb => ?_⟩, fun b hb => ?_⟩, List.pairwise_append.2
      ⟨List.pairwise_cons.2 ⟨fun b hb => ?_, hinnerPairs⟩, hpairs, ?_⟩⟩
    · exact ⟨henter.trans (hinner b hb).1, (hinner b hb).2.trans hend⟩
    · exact ⟨hback.trans (hmoments b hb).1, (hmoments b hb).2⟩
    · exact henter.trans (hinner b hb).1
    · refine List.forall_mem_cons.2 ⟨fun c hc => hback.trans (hmoments c hc).1, fun b hb c hc => ?_⟩
      exact (hinner b hb).2.trans (hmoments c hc).1

end Plan

/-- The run lemma. -/
theorem Reflects.run (h : Reflects past a) {p : Plan} (hp : p.IsOwn a) :
    Reflects (past ++ p.deeds a) (p.run a).2 ∧
      Each (fun past d => d.Follows past) past (p.deeds a) := by
  induction p generalizing a past with
  | done outcome => exact ⟨(List.append_nil past).symm ▸ h, nofun⟩
  | step op next ih =>
    obtain ⟨hop, hnext⟩ := List.forall_mem_cons.1 hp
    have hstep := Reflects.after (d := ⟨a, op⟩) h hop
    obtain ⟨hend, heach⟩ := ih _ _ hstep hnext
    exact ⟨by rwa [← List.append_cons] at hend, .cons (Reflects.follows (d := ⟨a, op⟩) h) heach⟩
  | inScope name kind body next ihBody ih =>
    obtain ⟨hbody, hnext⟩ := List.forall_mem_append.1 hp
    obtain ⟨hop, hbody⟩ := List.forall_mem_cons.1 hbody
    have hown : body.IsOwn (a.enterScope name kind) := hbody
    have henter : Reflects (past ++ [⟨a, .enter name kind⟩]) (a.enterScope name kind) :=
      Reflects.after (d := ⟨a, .enter name kind⟩) h hop
    obtain ⟨hinner, heachInner⟩ := ihBody henter hown
    rw [← List.append_cons] at hinner
    have hretains := h.sound.inScope ((h.sound.enterScope name kind).sound.run hown.fits)
    obtain ⟨hend, heach⟩ := ih _ _ (hinner.backTo hretains.sound.current_lt) hnext
    refine ⟨by rwa [List.append_assoc] at hend, .append (.cons ?_ heachInner) heach⟩
    exact Reflects.follows (d := ⟨a, .enter name kind⟩) h

/-- Whatever is done with the analyzer of a module by its own operations, in whatever order and
nesting, no later moment takes anything away from an earlier one. The symbols are at every deed, and
in the end, what the past tells: those that were declared, each as it was declared, but that the
unknown type of a variable is the one of the first typed assignment that found it. And what a deed
comes to hangs on that past (`Deed.Follows`). -/
theorem Plan.symbols_written_once (p : Plan) (module : String) (source : Source)
    (hp : p.IsOwn (.ofModule module source)) :
    let start := Analyzer.ofModule module source
    (p.moments start).Pairwise (fun a b => a.scopes.ExtendsTo b.scopes) ∧
    (p.run start).2.scopes.symbols = symbolsOf (p.deeds start) ∧
    ∀ (i : Nat) (d : Deed), (p.deeds start)[i]? = some d →
      d.before ∈ p.moments start ∧ d.after ∈ p.moments start ∧
        d.Follows ((p.deeds start).take i) := by
  intro start
  obtain ⟨hend, heach⟩ := (Reflects.ofModule module source).run hp
  refine ⟨(Plan.extends_moments hp).2, hend.symbols, fun i d hd => ?_⟩
  obtain ⟨hbefore, hafter⟩ := p.mem_moments_of_mem_deeds start d (List.mem_of_getElem? hd)
  exact ⟨hbefore, hafter, heach i d hd⟩

/-- A name that is declared around a function and in it: the first typed assignment in the function
finds the inner variable, and the one behind the function the outer one. A second declaration and a
value of another type are refused on the way. -/
def Plan.shadows : Plan :=
  let body : Plan := .step (.register "x" (.variable none) 9) fun _ _ =>
    .step (.assign "x" none 24) fun _ _ =>
    .step (.assign "x" (some .int) 30) fun _ _ =>
    .step (.register "x" (.function [] none) 34) fun _ _ =>
    .step (.assign "x" (some .string) 40) fun outcome _ => .done outcome
  .step (.register "x" (.variable none) 4) fun _ _ =>
    .inScope "f" .function body fun _ _ =>
    .step (.assign "x" (some .string) 50) fun outcome _ => .done outcome

theorem Plan.symbols_written_once_shadows :
    let start := Analyzer.ofModule "main" {}
    Plan.shadows.IsOwn start ∧
    (Plan.shadows.run start).2.scopes.symbols =
      [⟨"x", .variable (some .string), 4, root⟩, ⟨"x", .variable (some .int), 9, 1⟩] ∧
    (Plan.shadows.deeds start).map Deed.outcome =
      [.ok (), .ok (), .ok (), .ok (), .ok (),
        .error (.duplicateSymbol "x" 34 9 "offset 9"),
        .error (.typeMismatch "int" "string" 40), .ok ()] := by
  intro start
  have hown : Plan.shadows.IsOwn start := by
    have hall : (Plan.shadows.deeds start).all (·.op.isOwn) = true := rfl
    exact List.all_eq_true.1 hall
  obtain ⟨-, hsymbols, -⟩ := Plan.symbols_written_once Plan.shadows "main" {} hown
  exact ⟨hown, hsymbols.trans rfl, by decide +kernel⟩

end Analyzer

end JayFrontEnd
