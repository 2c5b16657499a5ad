import JayFrontEnd.Proofs.Analysis.Program
import JayFrontEnd.Proofs.Grammar.Tree
import Mathlib.Data.List.Basic
import Mathlib.Data.Option.Basic

/-!
# What an analysis may report

Trees that are read from tokens have all the fields that the analysis asks for, and what it reports
stands where one of the tokens does: a name at an identifier with that text, a name of another
module behind that module's name and a dot. The analyzer remembers nothing else: `Located ts` says
so of events, and of what a scope tree holds. So an analysis that fails points at a name or at a
value, and one that meets a name twice can say where it stood first.
-/

namespace JayFrontEnd

def Source.Shows (s : Source) (offset : Nat) : Prop := (s.position? offset).isSome = true

/-! ## Events -/

/-- What the event may report stands among the tokens. -/
def Event.Located (ts : List Token) : Event → Prop
  | enter .. | leave => True
  | declare n _ | use n => NamedAt ts n.textD n.position
  | useRemote module n => MemberAt ts module.textD n.textD n.position
  | assign _ n => StandsAt ts n.position
  | refuse fault => ∃ name offset, fault = .unknownType name offset ∧ NamedAt ts name offset

/-- The work succeeds with what `Q` holds of, or meets a name of an unknown type. -/
def Sound {α : Type} (ts : List Token) (Q : α → Prop) (x : Except Fault α) : Prop :=
  (∃ y, x = .ok y ∧ Q y) ∨
    ∃ name offset, x = .error (.unknownType name offset) ∧ NamedAt ts name offset

section Events

variable {ts : List Token} {n : Node} {ns : List Node} {tag : NodeTag}

theorem located_append {es fs : List Event} (he : ∀ e ∈ es, e.Located ts)
    (hf : ∀ e ∈ fs, e.Located ts) : ∀ e ∈ es ++ fs, e.Located ts :=
  List.forall_mem_append.2 ⟨he, hf⟩

theorem Sound.bind {α β : Type} {Q : α → Prop} {R : β → Prop} {x : Except Fault α}
    {f : α → Except Fault β} (hx : Sound ts Q x) (hf : ∀ y, Q y → Sound ts R (f y)) :
    Sound ts R (x >>= f) := by
  rcases hx with ⟨y, rfl, hy⟩ | ⟨name, offset, rfl, ho⟩
  · exact hf y hy
  · exact .inr ⟨name, offset, rfl, ho⟩

theorem Sound.whenOk {α : Type} {Q : α → Prop} {x : Except Fault α} {es : α → List Event}
    (hx : Sound ts Q x) (hes : ∀ y, Q y → ∀ e ∈ es y, e.Located ts) :
    ∀ e ∈ Event.whenOk x es, e.Located ts := by
  rcases hx with ⟨y, rfl, hy⟩ | ⟨name, offset, rfl, ho⟩
  · exact hes y hy
  · exact List.forall_mem_singleton.2 ⟨name, offset, rfl, ho⟩

theorem Node.require_eq_ok {m : Node} {name : String} (h : n.field? name = some m) :
    n.require name = .ok ⟨m, h⟩ := by
  unfold require
  revert h
  generalize n.field? name = o
  rintro rfl
  rfl

theorem located_require {m : Node} {name : String}
    {es : { m : Node // n.field? name = some m } → List Event} (h : n.field? name = some m)
    (hes : ∀ e ∈ es ⟨m, h⟩, e.Located ts) :
    ∀ e ∈ Event.whenOk (n.require name) es, e.Located ts := by
  rw [Node.require_eq_ok h]
  exact hes

theorem forall_items_of_field? {m : Node} {name : String} {Q : Node → Prop}
    (h : n.field? name = some m) : ∀ m ∈ n.items, Q m := by
  obtain ⟨position, kind, value⟩ := n
  cases value with
  | list items => cases h
  | _ => exact List.forall_mem_nil _

theorem sound_declaredType (h : NamedAt ts n.textD n.position) :
    Sound ts (fun _ => True) (Event.declaredType n) := by
  unfold Event.declaredType Analyzer.resolveType
  split
  · exact .inl ⟨_, rfl, trivial⟩
  · exact .inr ⟨_, _, rfl, h⟩

theorem sound_declaredType? {o : Option Node} (h : ∀ n ∈ o, NamedAt ts n.textD n.position) :
    Sound ts (fun _ => True) (Event.declaredType? o) := by
  cases o with
  | none => exact .inl ⟨_, rfl, trivial⟩
  | some n =>
    rw [Event.declaredType?, map_eq_pure_bind]
    exact (sound_declaredType (h n rfl)).bind fun _ _ => .inl ⟨_, rfl, trivial⟩

def Node.IsParameter (ts : List Token) (p : Node) : Prop :=
  ∃ name type, p.field? "name" = some name ∧ p.field? "type" = some type ∧
    NamedAt ts name.textD name.position ∧ NamedAt ts type.textD type.position

theorem sound_params (h : ∀ p ∈ ns, p.IsParameter ts) :
    Sound ts (fun ps => ∀ p ∈ ps, NamedAt ts p.1.textD p.1.position) (Event.params ns) := by
  induction ns with
  | nil => exact .inl ⟨[], rfl, nofun⟩
  | cons p ns ih =>
    obtain ⟨⟨name, type, hname, htype, hn, ht⟩, hns⟩ := List.forall_mem_cons.1 h
    rw [Event.params, Node.require_eq_ok hname, Node.require_eq_ok htype]
    refine (sound_declaredType ht).bind fun t _ => (ih hns).bind fun ps hps => ?_
    exact .inl ⟨_, rfl, List.forall_mem_cons.2 ⟨hn, hps⟩⟩

theorem Event.ofStatement_other (h : ∀ tag ∈ NodeTag.ofName? n.kind,
    tag ∉ [.variableDecl, .functionDecl, .assignment, .functionCall, .block]) :
    ofStatement n = [] := by
  rw [ofStatement]
  cases ht : NodeTag.ofName? n.kind with
  | none => rfl
  | some tag =>
    have := h tag ht
    cases tag <;> first | rfl | exact absurd (by decide) this

/-- What the analysis reports about a tree, whatever it is analysed as, stands among the tokens. -/
structure Node.Located (ts : List Token) (n : Node) : Prop where
  position : StandsAt ts n.position
  expression : ∀ e ∈ Event.ofExpression n, e.Located ts
  statement : ∀ e ∈ Event.ofStatement n, e.Located ts
  expressions : ∀ e ∈ Event.ofExpressions n.items, e.Located ts
  statements : ∀ e ∈ Event.ofStatements n.items, e.Located ts

theorem located_ofExpressions (h : ∀ n ∈ ns, n.Located ts) :
    ∀ e ∈ Event.ofExpressions ns, e.Located ts := by
  induction ns with
  | nil =>
    rw [Event.ofExpressions]
    exact List.forall_mem_nil _
  | cons n ns ih =>
    obtain ⟨hn, hns⟩ := List.forall_mem_cons.1 h
    rw [Event.ofExpressions]
    exact located_append hn.expression (ih hns)

theorem located_ofStatements (h : ∀ n ∈ ns, n.Located ts) :
    ∀ e ∈ Event.ofStatements ns, e.Located ts := by
  induction ns with
  | nil =>
    rw [Event.ofStatements]
    exact List.forall_mem_nil _
  | cons n ns ih =>
    obtain ⟨hn, hns⟩ := List.forall_mem_cons.1 h
    rw [Event.ofStatements]
    exact located_append hn.statement (ih hns)

/-- A tree, by the trees in its list and by what it is analysed as. -/
theorem Node.Located.of_items (hp : StandsAt ts n.position)
    (he : ∀ e ∈ Event.ofExpression n, e.Located ts) (hs : ∀ e ∈ Event.ofStatement n, e.Located ts)
    (hitems : ∀ m ∈ n.items, m.Located ts) : n.Located ts :=
  ⟨hp, he, hs, located_ofExpressions hitems, located_ofStatements hitems⟩

/-- A tree of some tag that is neither an expression nor a statement. -/
theorem Node.Located.inert (tag : NodeTag) (ht : NodeTag.ofName? n.kind = some tag)
    (htag : tag ∈ [.root, .importDirective, .params, .param, .callArgs])
    (hp : StandsAt ts n.position) (hitems : ∀ m ∈ n.items, m.Located ts) : n.Located ts := by
  have hother : tag.isOperator = false ∧ tag ≠ .functionCall ∧
      tag ∉ [.variableDecl, .functionDecl, .assignment, .functionCall, .block] := by
    cases tag <;> first | decide | simp at htag
  refine .of_items hp ?_ ?_ hitems
  · rw [Event.ofExpression_other ht hother.1 hother.2.1]
    exact nofun
  · rw [Event.ofStatement_other fun t h => by cases ht.symm.trans h; exact hother.2.2]
    exact nofun

theorem Node.Located.of_statement (ht : NodeTag.ofName? n.kind = some tag)
    (hop : tag.isOperator = false) (hc : tag ≠ .functionCall) (hp : StandsAt ts n.position)
    (hs : ∀ e ∈ Event.ofStatement n, e.Located ts) (hitems : ∀ m ∈ n.items, m.Located ts) :
    n.Located ts := by
  refine .of_items hp ?_ hs hitems
  rw [Event.ofExpression_other ht hop hc]
  exact nofun

end Events

/-! ## Trees of tokens -/

section Trees

variable {ts : List Token} {r : Nonterminal} {w : List Token} {n : Node} {tag : NodeTag}

theorem TokenKind.is_of_ofName? {t : Token} {k : TokenKind} (h : ofName? t.kind = some k) :
    t.Is k :=
  (beq_iff_eq.1 (List.find?_some h :)).symm

theorem ofName?_tokenKind (k : TokenKind) : NodeTag.ofName? k.name = none := by
  cases k <;> decide

theorem located_ofToken (hts : Worded ts) {t : Token} {k : TokenKind} (hk : t.Is k) (ht : t ∈ ts) :
    (Node.ofToken t).Located ts := by
  have htag : NodeTag.ofName? (Node.ofToken t).kind = none :=
    (congrArg _ hk).trans (ofName?_tokenKind k)
  refine .of_items ⟨t, ht, rfl⟩ ?_ ?_ nofun
  · rw [Event.ofExpression_leaf htag]
    split
    · next hid =>
      exact List.forall_mem_singleton.2 (hts.namedAt ht (TokenKind.is_of_ofName? hid))
    · exact nofun
  · rw [Event.ofStatement_other fun t h => by cases htag.symm.trans h]
    exact nofun

theorem located_ofValue {name value : Node} (h : value.Located ts) :
    ∀ e ∈ Event.ofValue name value, e.Located ts :=
  located_append h.expression (List.forall_mem_singleton.2 h.position)

/-! ### Statements and expressions, by their fields -/

section Fields

variable {first second : Node}

theorem located_assignment (ht : NodeTag.ofName? n.kind = some .assignment)
    (hp : StandsAt ts n.position) (hname : n.field? "name" = some first)
    (hvalue : n.field? "value" = some second) (hfirst : NamedAt ts first.textD first.position)
    (hsecond : second.Located ts) : n.Located ts := by
  refine .of_statement ht rfl nofun hp ?_ (forall_items_of_field? hname)
  rw [Event.ofStatement, ht]
  refine located_require hname (located_require hvalue ?_)
  exact List.forall_mem_cons.2 ⟨hfirst, located_ofValue hsecond⟩

theorem located_variableDecl (ht : NodeTag.ofName? n.kind = some .variableDecl)
    (hp : StandsAt ts n.position) (hname : n.field? "name" = some first)
    (hfirst : NamedAt ts first.textD first.position)
    (htype : ∀ t ∈ n.field? "type", NamedAt ts t.textD t.position)
    (hvalue : ∀ v ∈ n.field? "value", v.Located ts) : n.Located ts := by
  refine .of_statement ht rfl nofun hp ?_ (forall_items_of_field? hname)
  rw [Event.ofStatement, ht]
  refine located_require hname ((sound_declaredType? htype).whenOk fun _ _ => ?_)
  refine List.forall_mem_cons.2 ⟨hfirst, ?_⟩
  cases hv : n.field? "value" with
  | none => exact List.forall_mem_nil _
  | some v => exact located_ofValue (hvalue v hv)

theorem located_functionDecl (ht : NodeTag.ofName? n.kind = some .functionDecl)
    (hp : StandsAt ts n.position) (hname : n.field? "name" = some first)
    (hbody : n.field? "body" = some second) (hfirst : NamedAt ts first.textD first.position)
    (hsecond : second.Located ts)
    (hparams : ∀ x ∈ n.field? "params", ∀ p ∈ x.items, p.IsParameter ts)
    (hreturns : ∀ t ∈ n.field? "returns", NamedAt ts t.textD t.position) : n.Located ts := by
  have hitems : ∀ p ∈ ((n.field? "params").map (·.items)).getD [], p.IsParameter ts := by
    cases hx : n.field? "params" with
    | none => exact nofun
    | some x => exact hparams x hx
  refine .of_statement ht rfl nofun hp ?_ (forall_items_of_field? hname)
  rw [Analysis.ofStatement_functionDecl ht]
  refine located_require hname (located_require hbody ?_)
  refine (sound_params hitems).whenOk fun ps hps => ?_
  refine (sound_declaredType? hreturns).whenOk fun _ _ => List.forall_mem_cons.2 ⟨hfirst, ?_⟩
  refine located_append (List.forall_mem_cons.2 ⟨trivial, located_append ?_ hsecond.statements⟩)
    (List.forall_mem_singleton.2 trivial)
  exact List.forall_mem_map.2 hps

theorem located_functionCall (ht : NodeTag.ofName? n.kind = some .functionCall)
    (hp : StandsAt ts n.position) (hname : n.field? "name" = some first)
    (hfirst : NamedAt ts first.textD first.position)
    (hmodule : ∀ m ∈ n.field? "module", MemberAt ts m.textD first.textD first.position)
    (hargs : ∀ x ∈ n.field? "args", x.Located ts) : n.Located ts := by
  have hcall : ∀ e ∈ Event.ofCall n, e.Located ts := by
    rw [Event.ofCall]
    refine located_require hname (List.forall_mem_cons.2 ⟨?_, ?_⟩)
    · cases hm : n.field? "module" with
      | none => exact hfirst
      | some m => exact hmodule m hm
    · unfold Node.arguments
      cases hx : n.field? "args" with
      | none =>
        rw [Option.map_none, Option.getD_none]
        exact located_ofExpressions (List.forall_mem_nil _)
      | some x => exact (hargs x hx).expressions
  refine .of_items hp (Event.ofExpression_call ht ▸ hcall) ?_ (forall_items_of_field? hname)
  rw [Event.ofStatement, ht]
  exact hcall

theorem located_block (ht : NodeTag.ofName? n.kind = some .block) (hp : StandsAt ts n.position)
    (hitems : ∀ m ∈ n.items, m.Located ts) : n.Located ts := by
  refine .of_statement ht rfl nofun hp ?_ hitems
  rw [Event.ofStatement, ht]
  refine located_append (List.forall_mem_cons.2 ⟨trivial, located_ofStatements hitems⟩) ?_
  exact List.forall_mem_singleton.2 trivial

theorem located_operator (ht : NodeTag.ofName? n.kind = some tag) (hop : tag.isOperator = true)
    (hp : StandsAt ts n.position) (hlhs : n.field? "lhs" = some first)
    (hrhs : n.field? "rhs" = some second) (hfirst : first.Located ts)
    (hsecond : second.Located ts) : n.Located ts := by
  refine .of_items hp ?_ ?_ (forall_items_of_field? hlhs)
  · rw [Event.ofExpression_operator ht hop]
    exact located_require hlhs
      (located_append hfirst.expression (located_require hrhs hsecond.expression))
  · have htag : tag ∉ [.variableDecl, .functionDecl, .assignment, .functionCall, .block] := by
      cases tag <;> first | decide | cases hop
    rw [Event.ofStatement_other fun t h => by cases ht.symm.trans h; exact htag]
    exact nofun

end Fields

theorem isParameter_of_spells (h : Spells .params w n) (hts : Worded ts) (hw : w <:+: ts) :
    ∀ p ∈ n.items, p.IsParameter ts := by
  have hparam : ∀ {v : List Token} {p : Node}, Spells .param v p → v <:+: ts →
      p.IsParameter ts := by
    intro v p hp hv
    cases hp with
    | param hname htype =>
      obtain ⟨hn, hv⟩ := infix_of_cons hv
      obtain ⟨ht, -⟩ := infix_of_cons hv
      exact ⟨_, _, rfl, rfl, hts.namedAt hn hname, hts.namedAt ht htype⟩
    | list hq => cases hq
    | operand hq => rcases hq with hq | hq <;> cases hq
    | operator hq => cases hq
  cases h with
  | list hq hfirst _ _ hothers =>
    cases hq
    obtain ⟨hw, hrest⟩ := infix_of_append hw
    refine List.forall_mem_cons.2 ⟨hparam hfirst hw, List.forall_mem_map.2 fun x hx => ?_⟩
    exact hparam (hothers x hx) (infix_tail (infix_of_flatMap hrest hx))
  | operand hq => rcases hq with hq | hq <;> cases hq
  | operator hq => cases hq

theorem StartsAt.standsAt {start : Nat} (h : StartsAt start w) (hne : w ≠ []) (hw : w <:+: ts) :
    StandsAt ts start := by
  obtain ⟨t, v, rfl⟩ := List.exists_cons_of_ne_nil hne
  exact ⟨t, (infix_of_cons hw).1, h t rfl⟩

theorem exists_tag_binary (start : Nat) (left right : Node) {sign : Token} {k : TokenKind}
    (hk : k ∈ r.operators) (hsign : sign.Is k) :
    ∃ tag, NodeTag.ofName? (Jay.binary start (.ofToken sign) left right).kind = some tag ∧
      tag.isOperator = true := by
  show ∃ tag, NodeTag.ofName? (((Jay.operator? sign.kind).map NodeTag.name).getD sign.kind) =
    some tag ∧ tag.isOperator = true
  rw [hsign]
  cases r with
  | expression | product =>
    rcases List.mem_pair.1 hk with rfl | rfl
    all_goals exact ⟨_, rfl, rfl⟩
  | _ => cases hk

/-- A call of a function in another module names both, with a dot between them. -/
theorem memberAt_of_call (hts : Worded ts) {first dot member : Token} {v : List Token}
    (hfirst : first.Is .identifier) (hdot : dot.Is .dot) (hmember : member.Is .identifier)
    (hw : first :: ([dot, member] ++ v) <:+: ts) :
    MemberAt ts (Node.ofToken first).textD (Node.ofToken member).textD
      (Node.ofToken member).position := by
  have hcall : [first, dot, member] <:+: ts :=
    (List.prefix_append [first, dot, member] v).isInfix.trans hw
  exact ⟨first, dot, member, hcall,
    hts first (hcall.subset (by simp)) .identifier (.inr rfl) hfirst, hdot,
    hts member (hcall.subset (by simp)) .identifier (.inr rfl) hmember, rfl⟩

/-- The induction is on how the tree is spelled. That there is a token tells where a tree begins
that begins with another one. -/
theorem located_of_spells (h : Spells r w n) (hts : Worded ts) (hr : r ≠ .root) (hw : w <:+: ts) :
    w ≠ [] ∧ n.Located ts := by
  induction h with
  | importDirective =>
    obtain ⟨hk, -⟩ := infix_of_cons hw
    exact ⟨List.cons_ne_nil _ _, .inert .importDirective rfl (by decide) ⟨_, hk, rfl⟩ nofun⟩
  | declStatement hq _ _ ih | statement hq _ _ ih =>
    obtain ⟨hne, hn⟩ := ih (ne_root_of_mem_choices hq) (infix_of_append hw).1
    exact ⟨List.append_ne_nil_of_left_ne_nil hne _, hn⟩
  | @variableDecl keyword target type value _ htarget htypes _ _ ih =>
    obtain ⟨hk, hw⟩ := infix_of_cons hw
    obtain ⟨ht, hw⟩ := infix_of_cons hw
    obtain ⟨htype, hvalue⟩ := infix_of_append hw
    refine ⟨List.cons_ne_nil _ _, located_variableDecl rfl ⟨_, hk, rfl⟩ rfl
      (hts.namedAt ht htarget) ?_ ?_⟩
    · exact Option.forall_mem_map.2 fun t h =>
        hts.namedAt (htype.subset (Option.mem_toList.2 h)) (htypes t h)
    · refine Option.forall_mem_map.2 fun x hx => (ih x hx nofun ?_).2
      cases hx
      exact infix_tail hvalue
  | @functionDecl keyword function opening closing params returns w body _ hfunction _ hparams _
      hreturns _ _ ih =>
    obtain ⟨hk, hw⟩ := infix_of_cons hw
    obtain ⟨hf, hw⟩ := infix_of_cons hw
    obtain ⟨hps, hw⟩ := infix_of_append (infix_of_cons hw).2
    obtain ⟨hrs, hw⟩ := infix_of_append (infix_of_cons hw).2
    refine ⟨List.cons_ne_nil _ _, located_functionDecl rfl ⟨_, hk, rfl⟩ rfl rfl
      (hts.namedAt hf hfunction) (ih nofun hw).2 ?_ ?_⟩
    · refine Option.forall_mem_map.2 fun x hx => isParameter_of_spells (hparams x hx) hts ?_
      cases hx
      exact hps
    · exact Option.forall_mem_map.2 fun t h =>
        hts.namedAt (hrs.subset (Option.mem_toList.2 h)) (hreturns t h)
  | @list r q w first others start hq _ hstart _ _ ih ihs =>
    have hq' := ne_root_of_item? hq
    obtain ⟨hw, hrest⟩ := infix_of_append hw
    obtain ⟨hne, hfirst⟩ := ih hq' hw
    have hitems : ∀ m ∈ first :: others.map (·.2), m.Located ts := by
      refine List.forall_mem_cons.2 ⟨hfirst, List.forall_mem_map.2 fun x hx => ?_⟩
      exact (ihs x hx hq' (infix_tail (infix_of_flatMap hrest hx))).2
    refine ⟨List.append_ne_nil_of_left_ne_nil hne _, ?_⟩
    cases r with
    | params => exact .inert .params rfl (by decide) (hstart.standsAt hne hw) hitems
    | callArgs => exact .inert .callArgs rfl (by decide) (hstart.standsAt hne hw) hitems
    | _ => cases hq
  | param =>
    obtain ⟨hp, -⟩ := infix_of_cons hw
    exact ⟨List.cons_ne_nil _ _, .inert .param rfl (by decide) ⟨_, hp, rfl⟩ nofun⟩
  | block _ _ _ _ ih =>
    obtain ⟨ho, hw⟩ := infix_of_cons hw
    obtain ⟨hstatements, -⟩ := infix_of_append (infix_of_append hw).2
    refine ⟨List.cons_ne_nil _ _, located_block rfl ⟨_, ho, rfl⟩
      (List.forall_mem_map.2 fun x hx => ?_)⟩
    exact (ih x hx nofun (infix_of_flatMap hstatements hx)).2
  | @assignment target sign w value htarget _ _ ih =>
    obtain ⟨ht, hw⟩ := infix_of_cons hw
    exact ⟨List.cons_ne_nil _ _, located_assignment rfl ⟨_, ht, rfl⟩ rfl rfl
      (hts.namedAt ht htarget) (ih nofun (infix_of_cons hw).2).2⟩
  | @functionCall first opening closing member args hfirst hmember _ _ _ ih =>
    obtain ⟨hf, hrest⟩ := infix_of_cons hw
    obtain ⟨hm, hrest⟩ := infix_of_append hrest
    obtain ⟨hargs, -⟩ := infix_of_append (infix_of_cons hrest).2
    have hargs : ∀ x ∈ args.map (·.2), x.Located ts := by
      refine Option.forall_mem_map.2 fun x hx => (ih x hx nofun ?_).2
      cases hx
      exact hargs
    refine ⟨List.cons_ne_nil _ _, ?_⟩
    cases member with
    | none =>
      exact located_functionCall rfl ⟨_, hf, rfl⟩ rfl (hts.namedAt hf hfirst) nofun hargs
    | some x =>
      obtain ⟨hdot, hname⟩ := hmember x rfl
      have hcall := memberAt_of_call hts hfirst hdot hname hw
      exact located_functionCall rfl ⟨_, hf, rfl⟩ rfl hcall.namedAt
        (fun m hm => Option.some.inj hm ▸ hcall) hargs
  | operand _ hq _ ih => exact ih (ne_root_of_mem_choices hq) hw
  | @operator r q w v left right sign k start hq _ hstart hk hsign _ ih ih' =>
    obtain ⟨hw, hrest⟩ := infix_of_append hw
    obtain ⟨hne, hleft⟩ := ih (ne_root_of_mem_choices hq) hw
    obtain ⟨tag, htag, hop⟩ := exists_tag_binary start left right hk hsign
    exact ⟨List.append_ne_nil_of_left_ne_nil hne _, located_operator htag hop
      (hstart.standsAt hne hw) rfl rfl hleft (ih' hr (infix_of_cons hrest).2).2⟩
  | parenthesis ho _ hc ih =>
    exact ⟨List.cons_ne_nil _ _, (ih nofun (infix_of_append (infix_of_cons hw).2).1).2⟩
  | basicExpression _ hk =>
    exact ⟨List.cons_ne_nil _ _, located_ofToken hts hk (infix_of_cons hw).1⟩
  | root => cases hr rfl

/-- What the analysis of a module may report stands among its tokens. -/
theorem located_events (h : Spells .root w n) (hts : Worded ts) (hw : w <:+: ts) :
    ∀ e ∈ n.events, e.Located ts := by
  cases h with
  | root _ himports hdeclarations =>
    obtain ⟨hi, hd⟩ := infix_of_append (infix_of_append hw).2
    refine located_ofStatements (List.forall_mem_append.2 ⟨?_, ?_⟩)
    · exact List.forall_mem_map.2 fun x hx =>
        (located_of_spells (himports x hx) hts nofun (infix_of_flatMap hi hx)).2
    · exact List.forall_mem_map.2 fun x hx =>
        (located_of_spells (hdeclarations x hx) hts nofun (infix_of_flatMap hd hx)).2
  | list hq => cases hq
  | operand hq => rcases hq with hq | hq <;> cases hq
  | operator _ _ _ hk => cases hk

end Trees

/-! ## Scope trees -/

namespace ScopeTree

structure Located (ts : List Token) (t : ScopeTree) : Prop where
  symbols : ∀ y ∈ t.symbols, NamedAt ts y.name y.position
  localRefs : ∀ s, ∀ r ∈ t.localRefs s, NamedAt ts r.name r.position
  remoteRefs : ∀ s, ∀ r ∈ t.remoteRefs s, MemberAt ts r.module r.name r.position

namespace Located

variable {ts : List Token} {t u : ScopeTree} {s : ScopeId} {name : String} {position : Nat}

theorem ofModule (ts : List Token) (name : String) : (ScopeTree.ofModule name).Located ts where
  symbols := nofun
  localRefs s := by cases s <;> exact nofun
  remoteRefs s := by cases s <;> exact nofun

theorem addChild (h : t.Located ts) (kind : ScopeKind) : (t.addChild s name kind).2.Located ts where
  symbols := h.symbols
  localRefs r := by
    rw [localRefs_addChild]
    exact h.localRefs r
  remoteRefs r := by
    rw [remoteRefs_addChild]
    exact h.remoteRefs r

theorem define (h : t.Located ts) (hp : NamedAt ts name position) {kind : SymbolKind} {i : SymbolId}
    (hu : t.define s name kind position = .ok (i, u)) : u.Located ts where
  symbols := by
    rw [symbols_of_define hu]
    exact List.forall_mem_append.2 ⟨h.symbols, List.forall_mem_singleton.2 hp⟩
  localRefs _ := localRefs_of_define hu ▸ h.localRefs _
  remoteRefs _ := remoteRefs_of_define hu ▸ h.remoteRefs _

theorem addLocalRef (h : t.Located ts) (hp : NamedAt ts name position)
    (hs : s < t.scopes.length) : (t.addLocalRef s name position).Located ts where
  symbols := by
    rw [(SameDeclarations.addLocalRef ..).symbols]
    exact h.symbols
  localRefs r := by
    rw [localRefs_addLocalRef hs]
    split
    · exact List.forall_mem_append.2 ⟨h.localRefs r, List.forall_mem_singleton.2 hp⟩
    · exact h.localRefs r
  remoteRefs r := by
    rw [remoteRefs_addLocalRef]
    exact h.remoteRefs r

theorem addRemoteRef (h : t.Located ts) {module : String} (hp : MemberAt ts module name position)
    (hs : s < t.scopes.length) : (t.addRemoteRef s module name position).Located ts where
  symbols := by
    rw [(SameDeclarations.addRemoteRef ..).symbols]
    exact h.symbols
  localRefs r := by
    rw [localRefs_addRemoteRef]
    exact h.localRefs r
  remoteRefs r := by
    rw [remoteRefs_addRemoteRef hs]
    split
    · exact List.forall_mem_append.2 ⟨h.remoteRefs r, List.forall_mem_singleton.2 hp⟩
    · exact h.remoteRefs r

theorem setKind (h : t.Located ts) (i : SymbolId) (kind : SymbolKind) :
    (t.setKind i kind).Located ts where
  symbols y hy := by
    obtain ⟨j, hj⟩ := List.getElem?_of_mem hy
    rw [← ScopeTree.symbol?, symbol?_setKind] at hj
    obtain ⟨z, hz, rfl⟩ := Option.map_eq_some_iff.1 hj
    have := h.symbols z (List.mem_of_getElem? hz)
    split <;> exact this
  localRefs := h.localRefs
  remoteRefs := h.remoteRefs

end Located

end ScopeTree

/-! ## Analyzers -/

/-- A fault that the analysis of a source may come to. It points among the tokens, and a name that
is there already stood first where the source has a position. -/
inductive Source.Reports (s : Source) (ts : List Token) : Fault → Prop where
  | duplicateSymbol {name : String} {offset first : Nat} {p : Position} : NamedAt ts name offset →
      NamedAt ts name first → s.position? first = some p →
      s.Reports ts (.duplicateSymbol name offset first p.link)
  | typeMismatch {expected found : String} {offset : Nat} : StandsAt ts offset →
      s.Reports ts (.typeMismatch expected found offset)
  | unknownType {name : String} {offset : Nat} : NamedAt ts name offset →
      s.Reports ts (.unknownType name offset)

namespace Analyzer

variable {ts : List Token} {a b : Analyzer} {e : Event} {es : List Event} {fault : Fault}

/-- The step lemma. -/
theorem WellFormed.step_located (ha : a.WellFormed) (hs : a.scopes.Located ts) (he : e.Located ts)
    (h : a.step e = .ok b) : b.scopes.Located ts ∧ b.source = a.source := by
  cases e with
  | enter name kind => cases h; exact ⟨hs.addChild kind, rfl⟩
  | leave =>
    cases h
    unfold Analyzer.exitScope
    split <;> exact ⟨hs, rfl⟩
  | declare n kind =>
    obtain ⟨i, scopes, hdefine, rfl⟩ := register_eq_ok h
    exact ⟨hs.define he hdefine, rfl⟩
  | use n => cases h; exact ⟨hs.addLocalRef he ha.current_lt, rfl⟩
  | useRemote module n => cases h; exact ⟨hs.addRemoteRef he ha.current_lt, rfl⟩
  | assign n value =>
    obtain rfl | ⟨t, i, y, -, -, -, rfl⟩ := assign_eq_ok h
    · exact ⟨hs, rfl⟩
    · exact ⟨hs.setKind .., rfl⟩
  | refuse fault => cases h

section Refusals

variable {name : String} {position : Nat}

/-- A name that is there already is that of a symbol in the current scope. -/
theorem WellFormed.register_eq_error (ha : a.WellFormed) {kind : SymbolKind}
    (h : a.register name kind position = .error fault) :
    ∃ i y, a.scopes.symbol? i = some y ∧ y.name = name ∧ y.scope = a.current ∧
      fault = a.duplicate name position i := by
  unfold Analyzer.register at h
  split at h
  · cases h
  · next i hi =>
    cases h
    obtain ⟨y, hy, hname, hscope⟩ := ha.scopes.declared?_iff.1 (ScopeTree.define_eq_error hi)
    exact ⟨i, y, hy, hname, hscope, rfl⟩

theorem WellFormed.reports_of_register (ha : a.WellFormed) {kind : SymbolKind}
    (hshows : ∀ t ∈ ts, a.source.Shows t.position) (hs : a.scopes.Located ts)
    (hp : NamedAt ts name position) (h : a.register name kind position = .error fault) :
    a.source.Reports ts fault := by
  obtain ⟨i, y, hy, rfl, -, rfl⟩ := ha.register_eq_error h
  have hfirst := hs.symbols y (List.mem_of_getElem? hy)
  obtain ⟨t, ht, hposition⟩ := hfirst.standsAt
  obtain ⟨p, hp'⟩ := Option.isSome_iff_exists.1 (hposition ▸ hshows t ht)
  simp only [duplicate, hy, Option.map_some, Option.getD_some, hp']
  exact .duplicateSymbol hp hfirst hp'

theorem assign_eq_error {type : Option PrimitiveType}
    (h : a.assign name type position = .error fault) :
    ∃ expected found, fault = .typeMismatch expected found position := by
  unfold assign at h
  split at h
  · cases h
  · split at h
    · cases h
    · cases h
      exact ⟨_, _, rfl⟩
  · cases h

theorem WellFormed.reports_of_step (ha : a.WellFormed)
    (hshows : ∀ t ∈ ts, a.source.Shows t.position) (hs : a.scopes.Located ts) (he : e.Located ts)
    (h : a.step e = .error fault) : a.source.Reports ts fault := by
  cases e with
  | declare n kind => exact ha.reports_of_register hshows hs he h
  | assign n value =>
    obtain ⟨expected, found, rfl⟩ := assign_eq_error h
    exact .typeMismatch he
  | refuse fault =>
    cases h
    obtain ⟨name, offset, rfl, ho⟩ := he
    exact .unknownType ho
  | _ => cases h

end Refusals

/-- The run lemma. -/
theorem WellFormed.follow_located (ha : a.WellFormed)
    (hshows : ∀ t ∈ ts, a.source.Shows t.position) (hs : a.scopes.Located ts)
    (hes : ∀ e ∈ es, e.Located ts) :
    (∀ b, a.follow es = .ok b → b.scopes.Located ts) ∧
      ∀ fault, a.follow es = .error fault → a.source.Reports ts fault := by
  induction es generalizing a with
  | nil => exact ⟨fun b h => by cases h; exact hs, nofun⟩
  | cons e es ih =>
    obtain ⟨he, hes⟩ := List.forall_mem_cons.1 hes
    rw [follow_cons]
    cases hstep : a.step e with
    | error fault =>
      exact ⟨nofun, fun _ h => by cases h; exact ha.reports_of_step hshows hs he hstep⟩
    | ok c =>
      obtain ⟨hc, hsource⟩ := ha.step_located hs he hstep
      have := ih (ha.step hstep).wellFormed (hsource.symm ▸ hshows) hc hes
      rwa [hsource] at this

end Analyzer

end JayFrontEnd
