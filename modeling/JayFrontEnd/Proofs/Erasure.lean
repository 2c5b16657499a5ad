import JayFrontEnd.Parsing.Apply

/-!
# Without positions

`erased` takes the positions out of tokens and of trees. What is left of a token is its kind and its
text, and of a tree its shape with the kinds and texts in it: what a reader of the tree asks for,
apart from a position, is the same before and after.
-/

namespace JayFrontEnd

def Token.erased (t : Token) : Token := { t with position := 0 }

mutual

def Node.erased : Node → Node
  | .mk _ kind value => .mk 0 kind value.erased

def Value.erased : Value → Value
  | .leaf t => .leaf t.erased
  | .text s => .text s
  | .composite fields => .composite (Value.erasedFields fields)
  | .list items => .list (Value.erasedItems items)

def Value.erasedFields : List (String × Option Node) → List (String × Option Node)
  | [] => []
  | (name, none) :: fields => (name, none) :: Value.erasedFields fields
  | (name, some n) :: fields => (name, some n.erased) :: Value.erasedFields fields

def Value.erasedItems : List Node → List Node
  | [] => []
  | n :: items => n.erased :: Value.erasedItems items

end

namespace Value

@[simp] theorem erasedItems_eq (items : List Node) : erasedItems items = items.map Node.erased := by
  induction items with
  | nil => rfl
  | cons n items ih => rw [erasedItems, ih, List.map_cons]

@[simp] theorem erasedFields_eq (fields : List (String × Option Node)) :
    erasedFields fields = fields.map (Prod.map id (Option.map Node.erased)) := by
  induction fields with
  | nil => rfl
  | cons f fields ih =>
    obtain ⟨name, _ | n⟩ := f <;> rw [erasedFields, ih] <;> rfl

theorem erased_composite (fields : List (String × Option Node)) : (composite fields).erased =
    composite (fields.map (Prod.map id (Option.map Node.erased))) := by
  rw [erased, erasedFields_eq]

theorem erased_list (items : List Node) : (list items).erased = list (items.map Node.erased) := by
  rw [erased, erasedItems_eq]

theorem text?_erased (v : Value) : v.erased.text? = v.text? := by
  cases v <;> rfl

theorem items_erased (v : Value) : v.erased.items = v.items.map Node.erased := by
  cases v with
  | list items => rw [erased_list]; rfl
  | _ => rfl

theorem field?_erased (v : Value) (name : String) :
    v.erased.field? name = (v.field? name).map Node.erased := by
  cases v with
  | composite fields =>
    rw [erased_composite]
    show ((fields.map _).lookup name).join = (fields.lookup name).join.map Node.erased
    induction fields with
    | nil => rfl
    | cons f fields ih =>
      rw [List.map_cons, List.lookup_cons, Prod.map_fst, id, List.lookup_cons]
      split
      · rfl
      · exact ih
  | _ => rfl

end Value

namespace Node

variable (n : Node)

@[simp] theorem erased_mk (position : Nat) (kind : String) (v : Value) :
    (mk position kind v).erased = mk 0 kind v.erased := by
  rw [erased]

@[simp] theorem erased_ofToken (t : Token) : (ofToken t).erased = ofToken t.erased := by
  rw [ofToken, erased_mk, Value.erased]
  rfl

@[simp] theorem kind_erased : n.erased.kind = n.kind := by
  cases n
  rw [erased]
  rfl

@[simp] theorem value_erased : n.erased.value = n.value.erased := by
  cases n
  rw [erased]
  rfl

@[simp] theorem position_erased : n.erased.position = 0 := by
  cases n
  rw [erased]
  rfl

@[simp] theorem textD_erased : n.erased.textD = n.textD := by
  rw [textD, text?, value_erased, Value.text?_erased]
  rfl

@[simp] theorem items_erased : n.erased.items = n.items.map erased := by
  rw [items, value_erased, Value.items_erased]
  rfl

@[simp] theorem field?_erased (name : String) :
    n.erased.field? name = (n.field? name).map erased := by
  rw [field?, value_erased, Value.field?_erased]
  rfl

end Node

def Parsed.erased : Parsed → Parsed
  | .value v => .value v.erased
  | .node n => .node n.erased

end JayFrontEnd
