import JayFrontEnd.Proofs.Scope.Operation

/-!
# What linking a module within itself comes to

A tree that has been built links if every name that is used is visible, declared in the scope of the
use or in one around it. Then each use is resolved to the scope of the symbol that name lookup
finds. Otherwise the first use in linking order whose name is not visible is marked as failed, the
uses before it are resolved, and the uses after it keep their marks (`LinkOutcome`).

Which marks linking puts hangs on the tree without its marks alone (`linkLocal_alike`). That is why
a second run repeats the first, and why a tree in which linking has failed links like a new one once
the missing name is declared.
-/

namespace JayFrontEnd.ScopeTree

variable {t u v : ScopeTree} {s d : ScopeId} {name : String}

/-! ## Names that can be seen -/

/-- The name is declared in the scope or in one around it. -/
def Visible (t : ScopeTree) (s : ScopeId) (name : String) : Prop :=
  ∃ d, t.Within d s ∧ (t.declared? d name).isSome

/-- Name lookup from scope `s` finds a symbol of scope `d`. -/
def FindsIn (t : ScopeTree) (s : ScopeId) (name : String) (d : ScopeId) : Prop :=
  ∃ i y, t.lookup? s name = some i ∧ t.symbol? i = some y ∧ y.scope = d

theorem visible_iff_binds : t.Visible s name ↔ ∃ d, t.Binds name s d := by
  constructor
  · rintro ⟨d, hd, hname⟩
    obtain ⟨i, hi⟩ := Option.isSome_iff_exists.1 hname
    -- from the scope that has the name inwards, each scope has it too or is passed
    induction hd with
    | refl => exact ⟨d, .here hi⟩
    | @tail p s _ hp ih =>
      obtain ⟨e, he⟩ := ih
      cases hs : t.declared? s name with
      | some j => exact ⟨s, .here hs⟩
      | none => exact ⟨e, .outer hs hp he⟩
  · rintro ⟨d, hd⟩
    obtain ⟨i, hi⟩ := hd.declares
    exact ⟨d, hd.within, by rw [hi]; rfl⟩

theorem WellFormed.visible_iff (ht : t.WellFormed) :
    t.Visible s name ↔ t.declaring? s name ≠ none := by
  simp only [visible_iff_binds, ← ht.declaring?_eq_some_iff, Option.ne_none_iff_exists']

/-- Lookup and linking agree on the scope of a name. -/
theorem WellFormed.findsIn_iff (ht : t.WellFormed) :
    t.FindsIn s name d ↔ t.declaring? s name = some d := by
  unfold FindsIn
  constructor
  · rintro ⟨i, y, hi, hy, rfl⟩
    obtain ⟨e, he, hei⟩ := ht.lookup?_eq_some_iff.1 hi
    obtain ⟨z, hz, -, hscope⟩ := ht.declared?_iff.1 hei
    obtain rfl : y = z := Option.some.inj (hy.symm.trans hz)
    rw [hscope]
    exact ht.declaring?_eq_some_iff.2 he
  · intro hd
    have hbinds := ht.declaring?_eq_some_iff.1 hd
    obtain ⟨i, hi⟩ := hbinds.declares
    obtain ⟨y, hy, -, hscope⟩ := ht.declared?_iff.1 hi
    exact ⟨i, y, ht.lookup?_eq_some_iff.2 ⟨d, hbinds, hi⟩, hy, hscope⟩

/-! ## The marks that are put -/

theorem slots_linkMarks (t : ScopeTree) (uses : List (ScopeId × Nat × LocalRef)) :
    (t.linkMarks uses).map slotOf <+: uses.map slotOf := by
  induction uses with
  | nil => exact List.prefix_rfl
  | cons use uses ih =>
    rw [linkMarks, List.map_cons]
    cases hm : t.localMark? use with
    | none => exact ⟨uses.map slotOf, rfl⟩
    | some m =>
      obtain ⟨d, -, rfl⟩ := Option.map_eq_some_iff.1 hm
      exact List.prefix_cons_inj _ |>.2 ih

theorem WellFormed.nodup_linkMarks (ht : t.WellFormed) :
    ((t.linkMarks t.localUses).map slotOf).Nodup :=
  (t.slots_linkMarks _).sublist.nodup (ht.nodup_slots t.localRefs)

theorem linkUses_reset (t : ScopeTree) (uses : List (ScopeId × Nat × LocalRef))
    (marked marked' : ScopeTree) :
    (t.linkUses (uses.map fun use => (use.1, use.2.1, UseKind.locals.reset use.2.2)) marked').1 =
        (t.linkUses uses marked).1 ∧
      t.linkMarks (uses.map fun use => (use.1, use.2.1, UseKind.locals.reset use.2.2)) =
        t.linkMarks uses := by
  induction uses generalizing marked marked' with
  | nil => exact ⟨rfl, rfl⟩
  | cons use uses ih =>
    obtain ⟨s, i, x⟩ := use
    have hname : t.declaring? s (UseKind.locals.reset x).name = t.declaring? s x.name := rfl
    simp only [List.map_cons, linkUses, linkMarks, localMark?, hname]
    cases t.declaring? s x.name with
    | none => exact ⟨rfl, rfl⟩
    | some d =>
      obtain ⟨hfst, hmarks⟩ := ih (marked.setLocalStatus s i (.resolved d))
        (marked'.setLocalStatus s i (.resolved d))
      exact ⟨hfst, congrArg (List.cons (s, i, RefStatus.resolved d)) hmarks⟩

theorem linkUses_of_sameDeclarations (h : SameDeclarations t u)
    (uses : List (ScopeId × Nat × LocalRef)) (marked : ScopeTree) :
    u.linkUses uses marked = t.linkUses uses marked ∧ u.linkMarks uses = t.linkMarks uses := by
  induction uses generalizing marked with
  | nil => exact ⟨rfl, rfl⟩
  | cons use uses ih =>
    obtain ⟨s, i, x⟩ := use
    simp only [linkUses, linkMarks, localMark?, h.declaring?]
    cases t.declaring? s x.name with
    | none => exact ⟨rfl, rfl⟩
    | some d =>
      exact ⟨(ih _).1, congrArg (List.cons (s, i, RefStatus.resolved d)) (ih marked).2⟩

/-- Trees that are the same but for marks on uses of names link alike: one does if the other does,
and the same marks are put. -/
theorem linkLocal_alike (h : UseKind.locals.unmarked t = UseKind.locals.unmarked u) :
    u.linkLocal.1 = t.linkLocal.1 ∧ u.linkMarks u.localUses = t.linkMarks t.localUses := by
  have hsame := UseKind.locals.sameDeclarations_of_unmarked h
  have huses : t.localUses.map (fun use => (use.1, use.2.1, UseKind.locals.reset use.2.2)) =
      u.localUses.map fun use => (use.1, use.2.1, UseKind.locals.reset use.2.2) :=
    map_uses hsame.walk (UseKind.locals.map_reset_refs h)
  obtain ⟨hfst, hmarks⟩ := t.linkUses_reset t.localUses t t
  obtain ⟨hfst', hmarks'⟩ := t.linkUses_reset u.localUses u t
  rw [← huses] at hfst' hmarks'
  refine ⟨?_, ?_⟩
  · rw [linkLocal, (linkUses_of_sameDeclarations hsame _ _).1, ← hfst', hfst]
    rfl
  · rw [(linkUses_of_sameDeclarations hsame _ u).2, ← hmarks', hmarks]

/-! ## What linking leaves -/

/-- The use `r` at a slot of `t` is resolved in `u`, to the scope where lookup finds its name. -/
def ResolvedIn (t u : ScopeTree) (s : ScopeId) (i : Nat) (r : LocalRef) : Prop :=
  ∃ d, t.FindsIn s r.name d ∧ (u.localRefs s)[i]? = some { r with status := .resolved d }

/-- The name of a use is declared neither in its scope nor around it. -/
def Undeclared (t : ScopeTree) (s : ScopeId) (r : LocalRef) : Prop := ¬ t.Visible s r.name

/-- The outcome of linking `t`, and the tree `u` that it leaves. -/
inductive LinkOutcome (t u : ScopeTree) : Except Fault Unit → Prop where
  | links : (∀ {s i r}, (t.localRefs s)[i]? = some r → t.ResolvedIn u s i r) →
      LinkOutcome t u (.ok ())
  /-- The first use of an undeclared name has failed; what comes before it is resolved, and what
  comes after it keeps its mark. -/
  | stops {s : ScopeId} {i : Nat} {r : LocalRef} : t.FirstUse t.localRefs t.Undeclared s i r →
      (u.localRefs s)[i]? = some { r with status := .failed } →
      (∀ {q j x}, (t.localRefs q)[j]? = some x → t.Precedes (q, j) (s, i) →
        t.ResolvedIn u q j x) →
      (∀ {q j x}, (t.localRefs q)[j]? = some x → t.Precedes (s, i) (q, j) →
        (u.localRefs q)[j]? = some x) →
      LinkOutcome t u (.error (.unresolvedSymbol r.name r.position))

section Marks

variable (ht : t.WellFormed)
include ht

theorem WellFormed.resolved_of_mem {before : List (ScopeId × Nat × LocalRef)} {marks : List Mark}
    (hall : List.Forall₂ (fun use m => t.localMark? use = some m) before marks)
    (hmarks : marks ⊆ t.linkMarks t.localUses) {s : ScopeId} {i : Nat} {r : LocalRef}
    (hr : (t.localRefs s)[i]? = some r) (hmem : (s, i, r) ∈ before) :
    t.ResolvedIn t.linkLocal.2 s i r := by
  obtain ⟨m, hm, hmark⟩ := exists_of_mem_left hall hmem
  obtain ⟨d, hd, rfl⟩ := Option.map_eq_some_iff.1 hmark
  refine ⟨d, ht.findsIn_iff.2 hd, ?_⟩
  rw [linkLocal_snd]
  have hslot := UseKind.locals.getElem?_marked_of_mem ht.nodup_linkMarks (hmarks hm) (t := t)
  exact hslot.trans (congrArg (Option.map _) hr)

theorem WellFormed.linkOutcome : t.LinkOutcome t.linkLocal.2 t.linkLocal.1 := by
  rcases t.linkUses_cases t.localUses t with
    ⟨hok, hall⟩ | ⟨before, s, i, r, after, marks, hsplit, hall, hnone, herr, hmarks⟩
  · rw [show t.linkLocal.1 = .ok () from hok]
    exact .links fun hr =>
      ht.resolved_of_mem hall (List.Subset.refl _) hr (ht.mem_localUses_iff.2 hr)
  · have hsorted := ht.uses_sorted t.localRefs
    rw [show t.uses t.localRefs = _ from hsplit, List.pairwise_append] at hsorted
    obtain ⟨-, hafter, hbefore⟩ := hsorted
    have hafter := (List.pairwise_cons.1 hafter).1
    have hfirst : t.FirstUse t.localRefs t.Undeclared s i r := by
      refine ht.firstUse lt_of_mem_localRefs hsplit (fun use huse hwrong => ?_) fun hvisible =>
        ht.visible_iff.1 hvisible hnone
      obtain ⟨m, -, hm⟩ := exists_of_mem_left hall huse
      exact hwrong (ht.visible_iff.2 (ne_none_of_localMark? hm))
    rw [show t.linkLocal.1 = _ from herr]
    refine .stops hfirst ?_ (fun {q j x} hx hqs => ?_) fun {q j x} hx hsq => ?_
    · have hmem : (s, i, .failed) ∈ t.linkMarks t.localUses := by rw [hmarks]; simp
      rw [linkLocal_snd]
      exact (UseKind.locals.getElem?_marked_of_mem ht.nodup_linkMarks hmem).trans
        (congrArg (Option.map _) hfirst.use)
    · have hmem := ht.mem_localUses_iff.2 hx
      rw [hsplit, List.mem_append, List.mem_cons] at hmem
      rcases hmem with hmem | hmem | hmem
      · exact ht.resolved_of_mem hall (by rw [hmarks]; simp) hx hmem
      · cases hmem
        exact absurd rfl hqs.ne
      · exact absurd (hafter _ hmem) hqs.asymm
    · have hslot : (q, j) ∉ (t.linkMarks t.localUses).map slotOf := by
        intro hmem
        obtain ⟨st, hmem⟩ := mem_map_slotOf.1 hmem
        rw [hmarks, List.mem_append, List.mem_singleton] at hmem
        rcases hmem with hmem | hmem
        · obtain ⟨⟨q, j, y⟩, huse, hm⟩ := exists_of_mem_right hall hmem
          obtain ⟨d, -, he⟩ := Option.map_eq_some_iff.1 hm
          cases he
          exact (hbefore _ huse _ (List.mem_cons_self ..)).asymm hsq
        · cases hmem
          exact absurd rfl hsq.ne
      rw [linkLocal_snd]
      exact (UseKind.locals.getElem?_marked_of_not_mem hslot).trans hx

/-- A tree links if every name that is used is visible. -/
theorem WellFormed.linkLocal_eq_ok_iff :
    t.linkLocal.1 = .ok () ↔ ∀ s, ∀ r ∈ t.localRefs s, t.Visible s r.name := by
  rcases ht.linkLocal_cases with ⟨⟨u, hu⟩, hall⟩ | ⟨u, s, i, x, hfirst, hu⟩
  · refine iff_of_true (congrArg Prod.fst hu) fun s r hr => ?_
    exact ht.visible_iff.2 fun hnone => hall s r hr (ht.unbound_iff.2 hnone)
  · refine iff_of_false (fun hok => ?_) fun hall => ?_
    · cases hok.symm.trans (congrArg Prod.fst hu)
    · exact ht.visible_iff.1 (hall s x (List.mem_of_getElem? hfirst.use))
        (ht.unbound_iff.1 hfirst.is_wrong)

/-- If linking goes through, it does not matter which marks there were. -/
theorem WellFormed.linkLocal_eq (h : UseKind.locals.unmarked t = UseKind.locals.unmarked u)
    (hok : t.linkLocal.1 = .ok ()) : u.linkLocal.2 = t.linkLocal.2 := by
  rw [linkLocal_snd, linkLocal_snd, (linkLocal_alike h).2]
  refine (UseKind.locals.marked_eq_marked h ht.nodup_linkMarks fun {s i x} hx => ?_).symm
  rcases t.linkUses_cases t.localUses t with ⟨-, hall⟩ | ⟨_, _, _, _, _, _, -, -, -, herr, -⟩
  · obtain ⟨m, hm, hmark⟩ := exists_of_mem_left hall (ht.mem_localUses_iff.2 hx)
    obtain ⟨d, -, rfl⟩ := Option.map_eq_some_iff.1 hmark
    exact mem_map_slotOf.2 ⟨_, hm⟩
  · cases hok.symm.trans herr

theorem WellFormed.linkLocal_linkLocal : t.linkLocal.2.linkLocal = t.linkLocal := by
  obtain ⟨hfst, hmarks⟩ := linkLocal_alike t.unmarked_linkLocal.symm
  refine Prod.ext hfst ?_
  rw [t.linkLocal.2.linkLocal_snd, hmarks, linkLocal_snd t]
  exact UseKind.locals.marked_marked ht.nodup_linkMarks t

end Marks

/-! ## Declaring a name -/

section Define

variable {kind : SymbolKind} {position : Nat} {i : SymbolId}

theorem SameDeclarations.within_iff (h : SameDeclarations t u) {r : ScopeId} :
    u.Within r s ↔ t.Within r s :=
  ⟨fun hr => hr.of_sameDeclarations h.symm, fun hr => hr.of_sameDeclarations h⟩

theorem SameDeclarations.visible_iff (h : SameDeclarations t u) :
    u.Visible s name ↔ t.Visible s name := by
  simp only [Visible, h.within_iff, h.declared?]

theorem visible_of_define {n : String} (hd : d < t.scopes.length)
    (h : t.define d name kind position = .ok (i, u)) :
    u.Visible s n ↔ t.Visible s n ∨ n = name ∧ t.Within d s := by
  have hwithin : ∀ e, u.Within e s ↔ t.Within e s := fun e => by
    simp only [Within, parent?_of_define h]
  simp only [Visible, hwithin, declared?_of_define h hd]
  constructor
  · rintro ⟨e, he, hn⟩
    split at hn
    · next hc => exact .inr ⟨hc.2, hc.1 ▸ he⟩
    · exact .inl ⟨e, he, hn⟩
  · rintro (⟨e, he, hn⟩ | ⟨rfl, he⟩)
    · refine ⟨e, he, ?_⟩
      split
      · rfl
      · exact hn
    · exact ⟨d, he, by rw [if_pos ⟨rfl, rfl⟩]; rfl⟩

theorem define_unmarked (t : ScopeTree) (d : ScopeId) (name : String) (kind : SymbolKind)
    (position : Nat) : (UseKind.locals.unmarked t).define d name kind position =
      (t.define d name kind position).map (Prod.map id UseKind.locals.unmarked) := by
  rw [define, define, (UseKind.locals.sameDeclarations_unmarked t).declared?]
  cases t.declared? d name with
  | some i => rfl
  | none =>
    have hmodify := UseKind.locals.unmarked_modifyScope
      (f := fun r => { r with symbols := r.symbols ++ [(name, t.symbols.length)] })
      (fun _ => rfl) t d
    have hnew := congrArg (fun u : ScopeTree =>
      ScopeTree.mk u.scopes (t.symbols ++ [Symbol.mk name kind position d])) hmodify
    exact congrArg (fun u => Except.ok (t.symbols.length, u)) hnew.symm

end Define

/-! ## The whole -/

/-- One of the trees links if the other does. If so, they are the same tree then; and in any case
they get the same marks. -/
structure LinkAlike (t u : ScopeTree) : Prop where
  outcome : u.linkLocal.1 = t.linkLocal.1
  tree : t.linkLocal.1 = .ok () → u.linkLocal.2 = t.linkLocal.2
  marks : ∃ marks, t.linkLocal.2 = UseKind.locals.marked t marks ∧
    u.linkLocal.2 = UseKind.locals.marked u marks

theorem WellFormed.linkAlike (ht : t.WellFormed)
    (h : UseKind.locals.unmarked t = UseKind.locals.unmarked u) : t.LinkAlike u where
  outcome := (linkLocal_alike h).1
  tree := ht.linkLocal_eq h
  marks := ⟨t.linkMarks t.localUses, t.linkLocal_snd, (linkLocal_alike h).2 ▸ u.linkLocal_snd⟩

/-- What linking within a module comes to, whatever marks its uses have before. It goes through if
all names are visible, and leaves the tree as `LinkOutcome` says; a second run does the same. But
for the marks on uses of names nothing changes, and the marks there were make no difference. So if a
name is declared after linking, the tree links if the names that were not visible are so now, and
like a tree in which nothing was linked before. -/
theorem linkLocal_outcome (ht : t.Built) :
    (t.linkLocal.1 = .ok () ↔ ∀ s, ∀ r ∈ t.localRefs s, t.Visible s r.name) ∧
    t.LinkOutcome t.linkLocal.2 t.linkLocal.1 ∧
    t.linkLocal.2.linkLocal = t.linkLocal ∧
    UseKind.locals.unmarked t.linkLocal.2 = UseKind.locals.unmarked t ∧
    (∀ u, UseKind.locals.unmarked t = UseKind.locals.unmarked u → t.LinkAlike u) ∧
    ∀ d name kind position i v, d < t.scopes.length →
      t.linkLocal.2.define d name kind position = .ok (i, v) →
      (v.linkLocal.1 = .ok () ↔
        ∀ s, ∀ r ∈ t.localRefs s, t.Visible s r.name ∨ r.name = name ∧ t.Within d s) ∧
      ∃ w, (UseKind.locals.unmarked t).define d name kind position = .ok (i, w) ∧
        w.LinkAlike v := by
  have hwf := ht.wellFormed
  have hsame := SameDeclarations.linkLocal t
  refine ⟨hwf.linkLocal_eq_ok_iff, hwf.linkOutcome, hwf.linkLocal_linkLocal, t.unmarked_linkLocal,
    fun u h => hwf.linkAlike h, fun d name kind position i v hd hv => ⟨?_, ?_⟩⟩
  · have hd' : d < t.linkLocal.2.scopes.length := hsame.length ▸ hd
    have hnames : ∀ s, (v.localRefs s).map LocalRef.name = (t.localRefs s).map LocalRef.name := by
      intro s
      rw [localRefs_of_define hv]
      exact UseKind.locals.map_refs_of_unmarked t.unmarked_linkLocal (fun _ _ => rfl) s
    rw [(ht.linkLocal.define hd' hv).wellFormed.linkLocal_eq_ok_iff]
    refine forall_congr' fun s => ?_
    simp only [visible_of_define hd' hv, hsame.visible_iff, hsame.within_iff]
    rw [← List.forall_mem_map (f := LocalRef.name)
      (P := fun n => t.Visible s n ∨ n = name ∧ t.Within d s), hnames, List.forall_mem_map]
  · have hfresh := t.linkLocal.2.define_unmarked d name kind position
    rw [hv, t.unmarked_linkLocal] at hfresh
    refine ⟨_, hfresh, ?_⟩
    have hv' := (ht.linkLocal.define (hsame.length ▸ hd) hv).wellFormed
    exact (hv'.of_sameDeclarations (UseKind.locals.sameDeclarations_unmarked v)).linkAlike
      (UseKind.locals.unmarked_unmarked v)

/-- A name that is declared in two scopes, one around the other, and one that no scope declares. Its
use comes between two others in the order of linking, and in the order of positions after them. -/
def shadowing : ScopeTree :=
  let t := (((ofModule "m").addChild root "f" .function).2.addChild 1 "b" .block).2
  let t := ((t.addChild root "g" .function).2.addChild 1 "c" .block).2
  let t := Operation.perform (.define root "x" (.variable none) 4) t
  let t := Operation.perform (.define 1 "x" (.variable none) 20) t
  let t := ((t.addLocalRef 2 "x" 30).addLocalRef 3 "x" 40).addLocalRef 4 "y" 50
  (t.setLocalStatus 2 0 .failed).setLocalStatus 3 0 (.resolved 1)

theorem built_shadowing : shadowing.Built := by
  have h := (Built.ofModule "m").perform (.addChild root "f" .function) (by decide)
  replace h := h.perform (.addChild 1 "b" .block) (by decide)
  replace h := h.perform (.addChild root "g" .function) (by decide)
  replace h := h.perform (.addChild 1 "c" .block) (by decide)
  replace h := h.perform (.define root "x" (.variable none) 4) (by decide)
  replace h := h.perform (.define 1 "x" (.variable none) 20) (by decide)
  replace h := h.perform (.addLocalRef 2 "x" 30) (by decide)
  replace h := h.perform (.addLocalRef 3 "x" 40) (by decide)
  replace h := h.perform (.addLocalRef 4 "y" 50) (by decide)
  exact (h.setLocalStatus 2 0 .failed).setLocalStatus 3 0 (.resolved 1)

theorem linkLocal_outcome_shadowing :
    shadowing.LinkOutcome shadowing.linkLocal.2 (.error (.unresolvedSymbol "y" 50)) ∧
    shadowing.linkLocal.2.linkLocal = shadowing.linkLocal ∧
    ∃ i v w, shadowing.linkLocal.2.define 1 "y" (.variable none) 70 = .ok (i, v) ∧
      (UseKind.locals.unmarked shadowing).define 1 "y" (.variable none) 70 = .ok (i, w) ∧
      v.linkLocal.1 = .ok () ∧ v.linkLocal.2 = w.linkLocal.2 := by
  obtain ⟨-, houtcome, htwice, -, -, hdefine⟩ := linkLocal_outcome built_shadowing
  obtain ⟨-, w, hw, halike⟩ := hdefine 1 "y" (.variable none) 70 _ _ (by decide) rfl
  have hok : w.linkLocal.1 = .ok () := by
    cases hw
    decide
  exact ⟨houtcome, htwice, _, _, w, rfl, hw, halike.outcome.trans hok, halike.tree hok⟩

end JayFrontEnd.ScopeTree
