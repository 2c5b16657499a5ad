import JayFrontEnd.Proofs.Parsing.Reads
import JayFrontEnd.Proofs.Pattern.Front
import JayFrontEnd.Proofs.Text.Boundary

/-!
# Spans of the input

A run that starts inside the input, at a token or a character boundary of the text, and ends inside
it, no earlier, spans what lies between. `Parser.Stays` says that all runs of a parser that start
inside the input end there, and what answers they may come to between which cursors. Choices keep
what they choose from, and the nodes of a repetition follow each other. `Parser.StaysFrom` is the
same for a rule, which makes nodes at offsets that it has come to know since it started.
-/

namespace JayFrontEnd

/-! ## The positions in a tree -/

mutual

def Node.positions : Node → List Nat
  | .mk position _ value => position :: value.positions

def Value.positions : Value → List Nat
  | .leaf _ => []
  | .text _ => []
  | .composite fields => Value.fieldPositions fields
  | .list items => Value.itemPositions items

def Value.fieldPositions : List (String × Option Node) → List Nat
  | [] => []
  | (_, none) :: fields => Value.fieldPositions fields
  | (_, some n) :: fields => n.positions ++ Value.fieldPositions fields

def Value.itemPositions : List Node → List Nat
  | [] => []
  | n :: items => n.positions ++ Value.itemPositions items

end

/-- One of the trees has a node at the offset. -/
def Node.At (ns : List Node) (offset : Nat) : Prop := ∃ n ∈ ns, offset ∈ n.positions

theorem Value.mem_positions_list {ns : List Node} {i : Nat} :
    i ∈ (Value.list ns).positions ↔ Node.At ns i := by
  rw [Value.positions]
  induction ns with
  | nil => simp [Value.itemPositions, Node.At]
  | cons n ns ih =>
    rw [Value.itemPositions, List.mem_append, ih]
    simp [Node.At]

theorem Node.at_append {as bs : List Node} {i : Nat} :
    Node.At (as ++ bs) i ↔ Node.At as i ∨ Node.At bs i := by
  simp [Node.At, or_and_right, exists_or]

theorem Value.mem_positions_composite {fields : List (String × Option Node)} {i : Nat} :
    i ∈ (Value.composite fields).positions ↔ ∃ f ∈ fields, Node.At f.2.toList i := by
  rw [Value.positions]
  induction fields with
  | nil => simp [Value.fieldPositions]
  | cons f fields ih =>
    obtain ⟨name, n | n⟩ := f
    · simp [Value.fieldPositions, ih, Node.At]
    · rw [Value.fieldPositions, List.mem_append, ih]
      simp [Node.At]

def Parsed.positions : Parsed → List Nat
  | .value v => v.positions
  | .node n => n.positions

/-- The node that a rule answers with, if it started at an offset. -/
def Parsed.nodeAt (offset : Nat) (kind : String) : Parsed → Node
  | .value v => .mk offset kind v
  | .node n => n

/-! ## What scripts make nodes of -/

mutual

/-- The rules that the atom has within it make nodes only at offsets of their own. -/
def Atom.Places : Atom → Prop
  | .inline _ script => script.Places fun _ => False
  | .named _ atom => atom.Places
  | _ => True

def Atom.AllPlace : List Atom → Prop
  | [] => True
  | a :: as => a.Places ∧ Atom.AllPlace as

/-- In what the script ends with, all nodes are at offsets that it has asked for, or come from the
nodes that it was given; `known` are the offsets so far. -/
def Script.Places (known : Nat → Prop) : Script → Prop
  | .done result => ∀ i ∈ result.positions, known i
  | .one atoms next => Atom.AllPlace atoms ∧
      ∀ n, (next n).Places fun i => known i ∨ Node.At [n] i
  | .opt atoms next => Atom.AllPlace atoms ∧
      ∀ n, (next n).Places fun i => known i ∨ Node.At n.toList i
  | .any atoms next => Atom.AllPlace atoms ∧
      ∀ ns, (next ns).Places fun i => known i ∨ Node.At ns i
  | .many atoms next => Atom.AllPlace atoms ∧
      ∀ ns, (next ns).Places fun i => known i ∨ Node.At ns i
  | .importModule _ _ next => next.Places known
  | .fail _ | .failAt _ _ | .abort _ => True
  | .offset next => ∀ offset, (next offset).Places fun i => known i ∨ i = offset
  | .peek next => ∀ t, (next t).Places known

end

/-- All rules of the grammar make nodes only at offsets of their own. -/
def Grammar.Places (g : Grammar) : Prop :=
  ∀ name script, g.rule? name = some script → script.Places fun _ => False

namespace Input

/-- The cursor is at one of the tokens or behind the last, or at a boundary of the text. -/
def Inside : Input → Nat → Prop
  | tokens ts, n => n ≤ ts.length
  | text cs, n => Text.Boundary n cs

/-- Tokens come in the order of their positions. -/
def Ordered : Input → Prop
  | tokens ts => ts.Pairwise (·.position ≤ ·.position)
  | text _ => True

variable {input : Input} {m n : Nat}

theorem Inside.le_length (h : input.Inside n) : n ≤ input.length := by
  cases input with
  | tokens ts => exact h
  | text cs => exact Text.Boundary.le h

theorem offset_mono (h : input.Ordered) (hmn : m ≤ n) : input.offset m ≤ input.offset n := by
  cases input with
  | text cs => exact hmn
  | tokens ts =>
    simp only [offset]
    have hle : ∀ {i j} (hi : i < ts.length) (hj : j < ts.length), i ≤ j →
        ts[i].position ≤ ts[j].position := by
      intro i j hi hj hij
      rcases Nat.lt_or_eq_of_le hij with hlt | rfl
      · exact List.pairwise_iff_getElem.1 h i j hi hj hlt
      · exact Nat.le_refl _
    by_cases hm : m < ts.length
    · by_cases hn : n < ts.length
      · simpa [hm, hn] using hle hm hn hmn
      · have hlast : ts.length - 1 < ts.length := by omega
        simpa [hm, hn, List.getLast?_eq_getElem?, hlast] using hle hm hlast (by omega)
    · have hn : ¬ n < ts.length := by omega
      simp [hm, hn]

/-- A cursor goes past some of the text that is left, and is inside the input again. -/
theorem Inside.past {as rest : List Char} (h : input.Inside n)
    (hfrom : input.textFrom n = as ++ rest) :
    input.Inside (n + Text.byteLength as) ∧ input.textFrom (n + Text.byteLength as) = rest := by
  cases input with
  | tokens ts =>
    obtain ⟨rfl, rfl⟩ := List.append_eq_nil_iff.1 hfrom.symm
    exact ⟨h, rfl⟩
  | text cs =>
    obtain ⟨left, hleft⟩ := Option.isSome_iff_exists.1 (Text.dropBytes?_isSome_iff.2 h)
    obtain rfl : left = as ++ rest := by simpa [textFrom, hleft] using hfrom
    obtain ⟨before, hcs, rfl⟩ := Text.dropBytes?_eq_some_iff.1 hleft
    have hdrop : Text.dropBytes? (Text.byteLength before + Text.byteLength as) cs = some rest :=
      Text.dropBytes?_eq_some_iff.2
        ⟨before ++ as, by rw [hcs, List.append_assoc], Text.byteLength_append before as⟩
    exact ⟨Text.dropBytes?_isSome_iff.1 (by simp [hdrop]), by simp [textFrom, hdrop]⟩

end Input

/-! ## What runs come to -/

section Spans

variable (c : Setting) {α β : Type}

/-- From one cursor to a later one, with all positions between the offsets of the two. -/
structure Setting.Spans (i j : Nat) (positions : Nat → Prop) : Prop where
  le : i ≤ j
  between : ∀ k, positions k → c.input.offset i ≤ k ∧ k ≤ c.input.offset j

/-- A run ends inside the input, and if it succeeds, with an answer that is allowed where it
ends. -/
structure Setting.Reaches (answers : α → Nat → Prop) (run : Except Failure α × ParseState) :
    Prop where
  inside : c.input.Inside run.2.cursor
  answer : ∀ a, run.1 = .ok a → answers a run.2.cursor

/-- From everywhere inside the input the parser ends inside it; `answers` says which answers it may
come to between which cursors. -/
def Parser.Stays (answers : Nat → α → Nat → Prop) (p : Parser α) : Prop :=
  ∀ s, c.input.Inside s.cursor → c.Reaches (answers s.cursor) (p c s)

/-- The same of a rule on its way: `known` are the offsets it has come to know since `start`. -/
def Parser.StaysFrom (known : Nat → Prop) (p : Parser Parsed) : Prop :=
  ∀ start s, c.input.Inside s.cursor → c.Spans start s.cursor known →
    c.Reaches (fun a j => c.Spans start j (· ∈ a.positions)) (p c s)

/-- One node after the other, each from where the last one stopped. -/
inductive Successive (gives : Nat → Node → Nat → Prop) : Nat → List Node → Nat → Prop where
  | nil (i : Nat) : Successive gives i [] i
  | cons {i j k : Nat} {n : Node} {ns : List Node} : gives i n j → Successive gives j ns k →
      Successive gives i (n :: ns) k

variable {c} {p q : Parser α} {i j k : Nat} {P Q known : Nat → Prop} {s t : ParseState}
  {answers : Nat → α → Nat → Prop} {gives : Nat → Node → Nat → Prop}

namespace Setting

theorem Spans.refl (i : Nat) : c.Spans i i fun _ => False := ⟨Nat.le_refl i, nofun⟩

theorem Spans.mono (h : c.Spans i j P) (hQ : ∀ k, Q k → P k) : c.Spans i j Q :=
  ⟨h.le, fun k hk => h.between k (hQ k hk)⟩

theorem Spans.trans (hc : c.input.Ordered) (h : c.Spans i j P) (h' : c.Spans j k Q) :
    c.Spans i k fun o => P o ∨ Q o := by
  refine ⟨Nat.le_trans h.le h'.le, fun o ho => ?_⟩
  have hij := Input.offset_mono hc h.le
  have hjk := Input.offset_mono hc h'.le
  rcases ho with ho | ho
  · have := h.between o ho
    omega
  · have := h'.between o ho
    omega

theorem Spans.node (hc : c.input.Ordered) {v : Value} (kind : String)
    (h : c.Spans i j (· ∈ v.positions)) :
    c.Spans i j (Node.At [.mk (c.input.offset i) kind v]) := by
  refine ⟨h.le, ?_⟩
  rintro o ⟨_, hmem, ho⟩
  rw [List.mem_singleton.1 hmem, Node.positions] at ho
  rcases List.mem_cons.1 ho with rfl | ho
  · exact ⟨Nat.le_refl _, Input.offset_mono hc h.le⟩
  · exact h.between o ho

theorem Spans.successive (hc : c.input.Ordered) {ns : List Node}
    (h : Successive gives i ns j) (hgives : ∀ i n j, gives i n j → c.Spans i j (Node.At [n])) :
    c.Spans i j (Node.At ns) := by
  induction h with
  | nil i => exact (refl i).mono (by simp [Node.At])
  | cons hfirst _ ih => exact ((hgives _ _ _ hfirst).trans hc ih).mono (by simp [Node.At])

theorem Reaches.ok {answers : α → Nat → Prop} {a : α} (ht : c.input.Inside t.cursor)
    (h : answers a t.cursor) : c.Reaches answers (.ok a, t) := by
  refine ⟨ht, fun b hb => ?_⟩
  cases hb
  exact h

theorem Reaches.error {answers : α → Nat → Prop} {e : Failure} (ht : c.input.Inside t.cursor) :
    c.Reaches answers (.error e, t) := ⟨ht, nofun⟩

theorem Reaches.answer_of_ok {answers : α → Nat → Prop} {a : α}
    (h : c.Reaches answers (.ok a, t)) : answers a t.cursor := h.answer a rfl

end Setting

theorem Successive.mono {gives' : Nat → Node → Nat → Prop} {ns : List Node}
    (h : Successive gives i ns j) (hg : ∀ i n j, gives i n j → gives' i n j) :
    Successive gives' i ns j := by
  induction h with
  | nil i => exact .nil i
  | cons hn _ ih => exact .cons (hg _ _ _ hn) ih

theorem Successive.eq_of_nil (h : Successive gives i [] j) : i = j := by
  cases h
  rfl

namespace Parser.Stays

theorem mono {answers' : Nat → α → Nat → Prop} (hp : p.Stays c answers)
    (h : ∀ i a j, answers i a j → answers' i a j) : p.Stays c answers' :=
  fun s hs => ⟨(hp s hs).inside, fun a ha => h _ _ _ ((hp s hs).answer a ha)⟩

theorem abort (fault : Fault) : (Parser.abort fault).Stays c answers := fun _ hs => .error hs

/-! ### Choice and repetition -/

theorem restoring (hp : p.Stays c answers) : (Parser.restoring p).Stays c answers := by
  intro s hs
  have hrun := hp s hs
  unfold Parser.restoring
  generalize p c s = run at hrun ⊢
  rcases run with ⟨(e | fault) | a, t⟩
  · exact .error hs
  · exact hrun
  · exact hrun

theorem orElse (hp : p.Stays c answers) (hq : q.Stays c answers) :
    (Parser.orElse p q).Stays c answers := by
  intro s hs
  have hrun := hp s hs
  unfold Parser.orElse
  generalize p c s = run at hrun ⊢
  rcases run with ⟨(e | fault) | a, t⟩
  · have hsecond := hq (t.moveTo s.cursor) hs
    dsimp only
    generalize q c (t.moveTo s.cursor) = second at hsecond ⊢
    rcases second with ⟨(f | fault) | a, u⟩
    · exact .error hsecond.inside
    · exact hsecond
    · exact hsecond
  · exact hrun
  · exact hrun

theorem labelled (label : String) (hp : p.Stays c answers) :
    (Parser.labelled label p).Stays c answers := by
  intro s hs
  have hrun := hp s hs
  unfold Parser.labelled
  generalize p c s = run at hrun ⊢
  rcases run with ⟨(e | fault) | a, t⟩
  · exact .error hrun.inside
  · exact hrun
  · exact hrun

variable {p : Parser Node}

theorem optional (hp : p.Stays c gives) :
    (Parser.optional p).Stays c fun i n j => Successive gives i n.toList j := by
  intro s hs
  have hrun := hp s hs
  unfold Parser.optional
  generalize p c s = run at hrun ⊢
  rcases run with ⟨(e | fault) | a, t⟩
  · exact .ok hs (.nil _)
  · exact .error hrun.inside
  · exact .ok hrun.inside (.cons hrun.answer_of_ok (.nil _))

theorem upTo (hp : p.Stays c gives) (n : Nat) :
    (Parser.upTo p n).Stays c fun i r j => Successive gives i r.1 j := by
  induction n with
  | zero => exact fun s hs => .ok hs (.nil _)
  | succ n ih =>
    intro s hs
    have hrun := hp s hs
    unfold Parser.upTo
    generalize p c s = run at hrun ⊢
    rcases run with ⟨(e | fault) | a, t⟩
    · exact .ok hs (.nil _)
    · exact .error hrun.inside
    · dsimp only
      split
      · exact .ok hrun.inside (.cons hrun.answer_of_ok (.nil _))
      · have hrest := ih t hrun.inside
        generalize Parser.upTo p n c t = rest at hrest ⊢
        rcases rest with ⟨e | ⟨as, e⟩, u⟩
        · exact .error hrest.inside
        · exact .ok hrest.inside (.cons hrun.answer_of_ok hrest.answer_of_ok)

theorem any (hp : p.Stays c gives) : (Parser.any p).Stays c (Successive gives) := by
  intro s hs
  have hrun : c.Reaches _ (Parser.repeated p c s) := hp.upTo _ s hs
  simp only [Parser.any, Bind.bind]
  generalize Parser.repeated p c s = run at hrun ⊢
  rcases run with ⟨e | as, t⟩
  · exact .error hrun.inside
  · exact .ok hrun.inside hrun.answer_of_ok

theorem many (hp : p.Stays c gives) : (Parser.many p).Stays c (Successive gives) := by
  intro s hs
  have hrun : c.Reaches _ (Parser.repeated p c s) := hp.upTo _ s hs
  unfold Parser.many
  generalize Parser.repeated p c s = run at hrun ⊢
  rcases run with ⟨e | ⟨as, e⟩, t⟩
  · exact .error hrun.inside
  · split
    · next heq =>
      cases heq
      exact .error hrun.inside
    · next heq =>
      cases heq
      exact .ok hrun.inside hrun.answer_of_ok
    · next heq => cases heq

end Parser.Stays

/-! ### Rules -/

/-- A rule starts without knowing any offset. Its node is at the offset where it starts, unless it
passes on one. -/
theorem Parser.StaysFrom.wrapped (hc : c.input.Ordered) {p : Parser Parsed} (kind : String)
    (hp : p.StaysFrom c fun _ => False) : (Parser.wrapped kind p).Stays c fun i n j =>
      c.Spans i j (Node.At [n]) ∧ ∃ result s t, s.cursor = i ∧ t.cursor = j ∧
        p c s = (.ok result, t) ∧ n = result.nodeAt (c.input.offset i) kind := by
  intro s hs
  have hreaches := hp s.cursor s hs (.refl _)
  unfold Parser.wrapped
  rcases hrun : p c s with ⟨e | (v | n), t⟩
  · rw [hrun] at hreaches
    exact .error hreaches.inside
  · rw [hrun] at hreaches
    exact .ok hreaches.inside ⟨.node hc kind hreaches.answer_of_ok, _, s, t, rfl, rfl, hrun, rfl⟩
  · rw [hrun] at hreaches
    have hpassed : ∀ k, Node.At [n] k → k ∈ (Parsed.node n).positions := by
      simp [Node.At, Parsed.positions]
    exact .ok hreaches.inside ⟨hreaches.answer_of_ok.mono hpassed, _, s, t, rfl, rfl, hrun, rfl⟩

namespace Parser.StaysFrom

theorem done {result : Parsed} (h : ∀ i ∈ result.positions, known i) :
    (pure result : Parser Parsed).StaysFrom c known :=
  fun _ _ hs hknown => .ok hs (hknown.mono h)

theorem of_error {p : Parser Parsed}
    (h : ∀ s, ∃ e t, p c s = (.error e, t) ∧ t.cursor = s.cursor) : p.StaysFrom c known := by
  intro start s hs _
  obtain ⟨e, t, hrun, hcursor⟩ := h s
  exact hrun ▸ .error (hcursor ▸ hs)

theorem bind {f : α → Parser Parsed} {nodes : α → List Node} (hc : c.input.Ordered)
    (hp : p.Stays c answers) (hspans : ∀ i a j, answers i a j → c.Spans i j (Node.At (nodes a)))
    (hf : ∀ a, (f a).StaysFrom c fun i => known i ∨ Node.At (nodes a) i) :
    (p >>= f).StaysFrom c known := by
  intro start s hs hknown
  have hrun := hp s hs
  simp only [Bind.bind]
  generalize p c s = run at hrun ⊢
  rcases run with ⟨e | a, t⟩
  · exact .error hrun.inside
  · exact hf a start t hrun.inside (hknown.trans hc (hspans _ _ _ hrun.answer_of_ok))

theorem offset {f : Nat → Parser Parsed} (hc : c.input.Ordered)
    (hf : ∀ offset, (f offset).StaysFrom c fun i => known i ∨ i = offset) :
    (Parser.offset >>= f).StaysFrom c known := by
  intro start s hs hknown
  have hhere : c.Spans s.cursor s.cursor (· = c.input.offset s.cursor) :=
    ⟨Nat.le_refl _, fun i hi => by simp [hi]⟩
  exact hf _ start s hs (hknown.trans hc hhere)

theorem peek {f : Option Token → Parser Parsed} (hf : ∀ t, (f t).StaysFrom c known) :
    (Parser.peek >>= f).StaysFrom c known := fun start s hs hknown => hf _ start s hs hknown

theorem importModule {p : Parser Parsed} (module : String) (position : Nat)
    (hp : p.StaysFrom c known) :
    (do Parser.importModule module position; p).StaysFrom c known := by
  intro start s hs hknown
  simp only [Bind.bind, Parser.importModule]
  split
  · next heq =>
    split at heq
    · cases heq
    · cases heq
      have hcursor := s.cursor_require ⟨module, position⟩
      exact hp start _ (hcursor.symm ▸ hs) (hcursor.symm ▸ hknown)
  · next heq =>
    split at heq
    · cases heq
      exact .error hs
    · cases heq

end Parser.StaysFrom

end Spans

end JayFrontEnd
