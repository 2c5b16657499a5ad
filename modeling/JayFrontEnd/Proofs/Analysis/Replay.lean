import JayFrontEnd.Proofs.Analysis.Follow

/-!
# Work that follows events

`Replays m es val` says that some work of the analysis does what following the events `es` does,
answers with `val` of the analyzer it leaves, and comes back to the scope it started in. The lemmas
build such statements as work is built: one piece after another, after something that may be
missing, in a scope of its own.
-/

namespace JayFrontEnd

namespace Analysis

variable {α β : Type}

/-- What some work answers and the analyzer it leaves, unless it fails. -/
def outcome (m : Analysis α) (a : Analyzer) : Except Fault (α × Analyzer) :=
  match m a with
  | (.ok x, b) => .ok (x, b)
  | (.error fault, _) => .error fault

theorem outcome_bind (m : Analysis α) (f : α → Analysis β) (a : Analyzer) :
    outcome (m >>= f) a = (outcome m a).bind fun p => outcome (f p.1) p.2 := by
  unfold outcome
  simp only [bind, ExceptT.bind, ExceptT.mk, StateT.bind, ExceptT.bindCont]
  rcases m a with ⟨_ | _, b⟩ <;> rfl

theorem outcome_lift (x : Except Fault α) (a : Analyzer) :
    outcome (liftM x) a = x.map (·, a) := by
  cases x <;> rfl

theorem lift_bind (x : Except Fault α) (f : α → Except Fault β) :
    (liftM (x >>= f) : Analysis β) = liftM x >>= fun y => liftM (f y) := by
  cases x <;> rfl

theorem outcome_attempt (f : Analyzer → Except Fault Analyzer) (a : Analyzer) :
    outcome (attempt f) a = (f a).map ((), ·) := by
  unfold attempt
  rw [outcome_bind]
  show outcome _ a = _
  cases f a <;> rfl

theorem outcome_inScope (name : String) (kind : ScopeKind) (body : Analysis Unit) (a : Analyzer) :
    outcome (inScope name kind body) a =
      (outcome body (a.enterScope name kind)).map fun p =>
        ((), { p.2 with current := a.current }) := by
  unfold outcome inScope Analyzer.inScope
  rcases body (a.enterScope name kind) with ⟨_ | _, b⟩ <;> rfl

/-- The work does what the events do, answers with a value of the analyzer it leaves, and comes back
to the scope it started in. -/
structure Replays (m : Analysis α) (es : List Event) (val : Analyzer → α) : Prop where
  outcome_eq : ∀ {a : Analyzer}, a.WellFormed →
    outcome m a = (a.follow es).map fun b => (val b, b)
  current_eq : ∀ {a b : Analyzer}, a.WellFormed → a.follow es = .ok b → b.current = a.current

namespace Replays

variable {m : Analysis α} {es fs : List Event} {val : Analyzer → α}

theorem pure (x : α) : Replays (Pure.pure x : Analysis α) [] fun _ => x where
  outcome_eq _ := rfl
  current_eq _ h := by cases h; rfl

/-- One piece of work after another, if what comes second does not change what the answer of the
first means for it. -/
theorem bind {f : α → Analysis β} {val' : α → Analyzer → β} (hm : Replays m es val)
    (hf : ∀ x, Replays (f x) fs (val' x))
    (hk : ∀ {b c : Analyzer}, b.follow fs = .ok c → val' (val c) c = val' (val b) c) :
    Replays (m >>= f) (es ++ fs) fun b => val' (val b) b where
  outcome_eq {a} ha := by
    rw [outcome_bind, hm.outcome_eq ha, Analyzer.follow_append]
    cases hb : a.follow es with
    | error fault => rfl
    | ok b =>
      show outcome (f (val b)) b = (b.follow fs).map _
      rw [(hf (val b)).outcome_eq (ha.follow hb).wellFormed]
      cases hc : b.follow fs with
      | error fault => rfl
      | ok c => simp only [Except.map, hk hc]
  current_eq {a c} ha hc := by
    obtain ⟨b, hb, hc⟩ := Analyzer.follow_append_eq_ok hc
    exact ((hf (val b)).current_eq (ha.follow hb).wellFormed hc).trans (hm.current_eq ha hb)

theorem andThen {n : Analysis β} {val' : Analyzer → β} (hm : Replays m es val)
    (hn : Replays n fs val') : Replays (m >>= fun _ => n) (es ++ fs) val' :=
  hm.bind (fun _ => hn) fun _ => rfl

theorem map (hm : Replays m es val) (g : α → β) :
    Replays (m >>= fun x => Pure.pure (g x)) es fun b => g (val b) := by
  have := hm.bind (fun x => pure (g x)) fun h => by cases h; rfl
  rwa [List.append_nil] at this

theorem whenOk {γ : Type} {x : Except Fault γ} {f : γ → Analysis β} {k : γ → List Event}
    {val : Analyzer → β} (hf : ∀ y, x = .ok y → Replays (f y) (k y) val) :
    Replays ((liftM x : Analysis γ) >>= f) (Event.whenOk x k) val where
  outcome_eq {a} ha := by
    rw [outcome_bind, outcome_lift]
    cases x with
    | error fault => rfl
    | ok y => exact (hf y rfl).outcome_eq ha
  current_eq {a b} ha h := by
    cases x with
    | error fault => cases h
    | ok y => exact (hf y rfl).current_eq ha h

theorem single {m : Analysis Unit} {e : Event}
    (hm : ∀ a, outcome m a = (a.step e).map ((), ·))
    (hc : ∀ {a b : Analyzer}, a.step e = .ok b → b.current = a.current) :
    Replays m [e] fun _ => () where
  outcome_eq {a} _ := by
    rw [hm, Analyzer.follow_cons]
    cases a.step e <;> rfl
  current_eq {a b} _ h := by
    obtain ⟨c, hb, hc'⟩ := Analyzer.follow_cons_eq_ok h
    cases hc'
    exact hc hb

theorem thenEvent {f : α → Analysis Unit} {e : Event} (hm : Replays m es val)
    (hf : ∀ b, outcome (f (val b)) b = (b.step e).map ((), ·))
    (hc : ∀ {a b : Analyzer}, a.step e = .ok b → b.current = a.current) :
    Replays (m >>= f) (es ++ [e]) fun _ => () where
  outcome_eq {a} ha := by
    rw [outcome_bind, hm.outcome_eq ha, Analyzer.follow_append]
    cases a.follow es with
    | error fault => rfl
    | ok b =>
      show outcome (f (val b)) b = (b.follow [e]).map _
      rw [hf, Analyzer.follow_cons]
      cases b.step e <;> rfl
  current_eq {a c} ha hc' := by
    obtain ⟨b, hb, hc'⟩ := Analyzer.follow_append_eq_ok hc'
    obtain ⟨d, hd, hc'⟩ := Analyzer.follow_cons_eq_ok hc'
    cases hc'
    exact (hc hd).trans (hm.current_eq ha hb)

theorem expectLocal (n : Node) : Replays (Analysis.expectLocal n) [.use n] fun _ => () :=
  single (fun _ => rfl) fun h => by cases h; rfl

theorem expectRemote (module n : Node) :
    Replays (Analysis.expectRemote module n) [.useRemote module n] fun _ => () :=
  single (fun _ => rfl) fun h => by cases h; rfl

theorem register (n : Node) (kind : SymbolKind) :
    Replays (Analysis.register n kind) [.declare n kind] fun _ => () := by
  refine single (fun a => outcome_attempt _ a) fun {a b} h => ?_
  obtain ⟨_, _, _, rfl⟩ := Analyzer.register_eq_ok h
  rfl

theorem forM {γ : Type} {f : γ → Analysis Unit} {e : γ → Event}
    (hf : ∀ x, Replays (f x) [e x] fun _ => ()) (xs : List γ) :
    Replays (xs.forM f) (xs.map e) fun _ => () := by
  induction xs with
  | nil => exact .pure ()
  | cons x xs ih => exact (hf x).andThen ih

theorem inScope {name : String} {kind : ScopeKind} {body : Analysis Unit}
    (hb : Replays body es fun _ => ()) :
    Replays (Analysis.inScope name kind body) (.enter name kind :: es ++ [.leave])
      fun _ => () := by
  have hleave : ∀ {a b : Analyzer}, a.WellFormed → (a.enterScope name kind).follow es = .ok b →
      b.exitScope = { b with current := a.current } := by
    intro a b ha h
    have he := (ha.enterScope name kind).wellFormed
    exact ha.exitScope_of_enterScope (he.follow h) (hb.current_eq he h)
  refine ⟨fun {a} ha => ?_, fun {a c} ha hc => ?_⟩
  · rw [outcome_inScope, hb.outcome_eq (ha.enterScope name kind).wellFormed, List.cons_append,
      Analyzer.follow_cons]
    show _ = ((a.enterScope name kind).follow (es ++ [.leave])).map _
    rw [Analyzer.follow_append]
    cases hf : (a.enterScope name kind).follow es with
    | error fault => rfl
    | ok b => simp only [Except.map, Except.bind, Analyzer.follow_cons, Analyzer.step, hleave ha hf]
              rfl
  · obtain ⟨b, hb', hc⟩ := Analyzer.follow_cons_eq_ok (List.cons_append ▸ hc)
    cases hb'
    obtain ⟨d, hd, hc⟩ := Analyzer.follow_append_eq_ok hc
    obtain ⟨e, he, hc⟩ := Analyzer.follow_cons_eq_ok hc
    cases he
    cases hc
    rw [hleave ha hd]

end Replays

end Analysis

end JayFrontEnd
