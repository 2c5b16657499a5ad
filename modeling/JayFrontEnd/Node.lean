import JayFrontEnd.Token

/-!
# Syntax trees

A node has the offset where its text begins, the kind that names what was recognised, and a value:
a token, a piece of text, named fields of which some may be absent, or a list. `Node.rows` lists a
tree in pre-order.
-/

namespace JayFrontEnd

mutual

inductive Node where
  | mk (position : Nat) (kind : String) (value : Value)
  deriving Repr

inductive Value where
  | leaf (token : Token)
  | text (text : String)
  | composite (fields : List (String × Option Node))
  | list (items : List Node)
  deriving Repr

end

mutual

def Node.decEq : (m n : Node) → Decidable (m = n)
  | .mk p k v, .mk q l w =>
    have := v.decEq w
    decidable_of_iff (p = q ∧ k = l ∧ v = w) (by rw [Node.mk.injEq])

def Value.decEq : (v w : Value) → Decidable (v = w)
  | .leaf s, .leaf t => decidable_of_iff (s = t) (by rw [Value.leaf.injEq])
  | .text s, .text t => decidable_of_iff (s = t) (by rw [Value.text.injEq])
  | .composite fs, .composite gs =>
    have := Value.decEqFields fs gs
    decidable_of_iff (fs = gs) (by rw [Value.composite.injEq])
  | .list ms, .list ns =>
    have := Value.decEqItems ms ns
    decidable_of_iff (ms = ns) (by rw [Value.list.injEq])
  | .leaf _, .text _ | .leaf _, .composite _ | .leaf _, .list _
  | .text _, .leaf _ | .text _, .composite _ | .text _, .list _
  | .composite _, .leaf _ | .composite _, .text _ | .composite _, .list _
  | .list _, .leaf _ | .list _, .text _ | .list _, .composite _ => isFalse nofun

def Value.decEqFields : (fs gs : List (String × Option Node)) → Decidable (fs = gs)
  | [], [] => isTrue rfl
  | [], _ :: _ | _ :: _, [] => isFalse nofun
  | (f, none) :: fs, (g, none) :: gs =>
    have := Value.decEqFields fs gs
    decidable_of_iff (f = g ∧ fs = gs) (by simp)
  | (f, some m) :: fs, (g, some n) :: gs =>
    have := m.decEq n
    have := Value.decEqFields fs gs
    decidable_of_iff (f = g ∧ m = n ∧ fs = gs) (by simp [and_assoc])
  | (_, none) :: _, (_, some _) :: _ | (_, some _) :: _, (_, none) :: _ => isFalse (by simp)

def Value.decEqItems : (ms ns : List Node) → Decidable (ms = ns)
  | [], [] => isTrue rfl
  | [], _ :: _ | _ :: _, [] => isFalse nofun
  | m :: ms, n :: ns =>
    have := m.decEq n
    have := Value.decEqItems ms ns
    decidable_of_iff (m = n ∧ ms = ns) (by rw [List.cons.injEq])

end

instance : DecidableEq Node := Node.decEq

namespace Value

def text? : Value → Option String
  | leaf t => t.text
  | text s => some s
  | _ => none

def token? : Value → Option Token
  | leaf t => some t
  | _ => none

/-- The field of a name, unless it is absent or there is none. -/
def field? (name : String) : Value → Option Node
  | composite fields => (fields.lookup name).join
  | _ => none

def items : Value → List Node
  | list items => items
  | _ => []

def form : Value → String
  | leaf _ => "leaf"
  | text _ => "text"
  | composite _ => "composite"
  | list _ => "list"

end Value

namespace Node

def position : Node → Nat
  | mk position _ _ => position

def kind : Node → String
  | mk _ kind _ => kind

def value : Node → Value
  | mk _ _ value => value

def text? (n : Node) : Option String := n.value.text?

def textD (n : Node) : String := n.text?.getD ""

def token? (n : Node) : Option Token := n.value.token?

def field? (n : Node) (name : String) : Option Node := n.value.field? name

def items (n : Node) : List Node := n.value.items

def ofToken (t : Token) : Node := mk t.position t.kind (.leaf t)

/-- A line of a tree's listing. A field without a node has neither kind nor position. -/
structure Row where
  depth : Nat
  field : Option String
  head : Option (String × Nat)
  form : String
  text : Option String
  deriving DecidableEq, Repr

mutual

def rows (depth : Nat) (field : Option String) : Node → List Row
  | mk position kind value =>
    ⟨depth, field, some (kind, position), value.form, value.text?⟩ :: valueRows (depth + 1) value

def valueRows (depth : Nat) : Value → List Row
  | .leaf _ => []
  | .text _ => []
  | .composite fields => fieldRows depth fields
  | .list items => itemRows depth items

def fieldRows (depth : Nat) : List (String × Option Node) → List Row
  | [] => []
  | (name, none) :: fields => ⟨depth, some name, none, "absent", none⟩ :: fieldRows depth fields
  | (name, some n) :: fields => rows depth (some name) n ++ fieldRows depth fields

def itemRows (depth : Nat) : List Node → List Row
  | [] => []
  | n :: items => rows depth none n ++ itemRows depth items

end

/-- A step down a tree: to an item of a list or to a field. -/
inductive Step where
  | item (index : Nat)
  | field (name : String)
  deriving DecidableEq, Repr

def step? (n : Node) : Step → Option Node
  | .item i => n.items[i]?
  | .field name => n.field? name

def follow? (n : Node) (path : List Step) : Option Node := path.foldlM step? n

end Node

end JayFrontEnd
