import JayFrontEnd.Proofs.Pattern.Ways
import Mathlib.Order.Interval.Set.Basic

/-!
# Trees of choices

The choices that a search may make, one after the other, are a tree, with an answer or none at each
leaf. A search that makes no choice twice goes down the tree and passes over what it has seen.
It finds the same answer as one that looks at every leaf in turn, as long as the same choice always
leads to the same tree: a choice that is seen again has failed, since a finite tree is no part of
itself.
-/

namespace JayFrontEnd

inductive ChoiceTree (α : Type) where
  | leaf (answer : Option α)
  | node (n : Nat) (s : Place) (first second : ChoiceTree α)

namespace ChoiceTree

variable {α β γ : Type}

def bind (f : α → ChoiceTree β) : ChoiceTree α → ChoiceTree β
  | leaf none => leaf none
  | leaf (some a) => f a
  | node n s t u => node n s (t.bind f) (u.bind f)

def map (f : α → β) (t : ChoiceTree α) : ChoiceTree β := t.bind fun a => leaf (some (f a))

/-- A choice between going on and leaving. -/
def choice (n : Nat) (s : Place) (greedy : Bool) (on off : ChoiceTree α) : ChoiceTree α :=
  if greedy then node n s on off else node n s off on

/-- The answers at the leaves, in turn. -/
def answers : ChoiceTree α → List α
  | leaf answer => answer.toList
  | node _ _ t u => t.answers ++ u.answers

def size : ChoiceTree α → Nat
  | leaf _ => 0
  | node _ _ t u => t.size + u.size + 1

/-- A search that makes no choice twice and offers what it finds to `k`. -/
def search (k : α → Tried → Option β × Tried) : ChoiceTree α → Tried → Option β × Tried
  | leaf none, tried => (none, tried)
  | leaf (some a), tried => k a tried
  | node n s t u, tried => Pattern.choose n s true (t.search k) (u.search k) tried

/-- The first answer that a search comes to. -/
def find (t : ChoiceTree α) (tried : Tried) : Option α × Tried :=
  t.search (fun a tried => (some a, tried)) tried

section Bind

variable (t : ChoiceTree α) (f : α → ChoiceTree β)

theorem bind_assoc (g : β → ChoiceTree γ) : (t.bind f).bind g = t.bind fun a => (f a).bind g := by
  induction t with
  | leaf answer => cases answer <;> rfl
  | node n s t u iht ihu => simp only [bind, iht, ihu]

theorem bind_congr {f g : α → ChoiceTree β} (h : ∀ a ∈ t.answers, f a = g a) :
    t.bind f = t.bind g := by
  induction t with
  | leaf answer =>
    cases answer with
    | none => rfl
    | some a => exact h a (.head _)
  | node n s t u iht ihu =>
    rw [bind, bind, iht fun a ha => h a (List.mem_append_left _ ha),
      ihu fun a ha => h a (List.mem_append_right _ ha)]

theorem bind_choice (n : Nat) (s : Place) (greedy : Bool) (on off : ChoiceTree α) :
    (choice n s greedy on off).bind f = choice n s greedy (on.bind f) (off.bind f) := by
  cases greedy <;> rfl

theorem answers_bind : (t.bind f).answers = t.answers.flatMap fun a => (f a).answers := by
  induction t with
  | leaf answer => cases answer <;> simp [bind, answers]
  | node n s t u iht ihu => simp only [bind, answers, iht, ihu, List.flatMap_append]

theorem answers_map (f : α → β) : (t.map f).answers = t.answers.map f := by
  rw [map, answers_bind]
  exact (List.map_eq_flatMap ..).symm

theorem size_map (f : α → β) : (t.map f).size = t.size := by
  induction t with
  | leaf answer => cases answer <;> rfl
  | node n s t u iht ihu => simpa only [map, bind, size] using congrArg₂ (· + · + 1) iht ihu

theorem search_bind (k : β → Tried → Option γ × Tried) :
    (t.bind f).search k = t.search fun a => (f a).search k := by
  induction t with
  | leaf answer => cases answer <;> rfl
  | node n s t u iht ihu =>
    funext tried
    rw [bind, search, search, iht, ihu]

theorem search_choice (n : Nat) (s : Place) (greedy : Bool) (on off : ChoiceTree α)
    (k : α → Tried → Option β × Tried) : (choice n s greedy on off).search k =
      Pattern.choose n s greedy (on.search k) (off.search k) := by
  cases greedy <;> rfl

end Bind

end ChoiceTree

/-! ## Choices that have been made -/

/-- The place lies in the text that follows the origin. -/
def Place.Precedes (origin s : Place) : Prop := ∃ cs, origin.afterText? cs = some s

namespace Place.Precedes

variable {origin s t : Place}

theorem refl (origin : Place) : origin.Precedes origin := ⟨[], rfl⟩

theorem trans {u : Place} (h : s.Precedes t) (h' : t.Precedes u) : s.Precedes u := by
  obtain ⟨as, has⟩ := h
  obtain ⟨bs, hbs⟩ := h'
  exact ⟨as ++ bs, afterText?_trans has hbs⟩

theorem le_offset (h : origin.Precedes s) : origin.offset ≤ s.offset := by
  obtain ⟨cs, hcs⟩ := h
  rw [(Leads.afterText? hcs).offset]
  exact Nat.le_add_right ..

/-- No two places have the same offset. -/
theorem eq_of_offset (h : origin.Precedes s) (h' : origin.Precedes t) (heq : s.offset = t.offset) :
    s = t := by
  obtain ⟨as, has⟩ := h
  obtain ⟨bs, hbs⟩ := h'
  have hlength : Text.byteLength as = Text.byteLength bs := by
    have := (Leads.afterText? has).offset
    have := (Leads.afterText? hbs).offset
    omega
  obtain rfl : as = bs := by
    have has := (Leads.afterText? has).rest
    have hbs := (Leads.afterText? hbs).rest
    have hupTo := has ▸ Text.charsWithin_append as s.rest
    rw [hlength, hbs, Text.charsWithin_append] at hupTo
    exact hupTo.symm
  exact Option.some.inj (has.symm.trans hbs)

end Place.Precedes

namespace Tried

variable {t : Tried} {m n o p : Nat}

/-- Choices at different offsets, or of different numbers, have different bits. -/
theorem bit_inj (hm : m < t.width) (hn : n < t.width) (ho : t.origin ≤ o) (hp : t.origin ≤ p) :
    t.bit m p = t.bit n o ↔ m = n ∧ p = o := by
  unfold bit
  constructor
  · intro h
    have hmod : m = n := by
      have := congrArg (· % t.width) h
      simpa [Nat.mul_add_mod_self_right, Nat.mod_eq_of_lt hm, Nat.mod_eq_of_lt hn] using this
    subst hmod
    have hsub := Nat.eq_of_mul_eq_mul_right (Nat.zero_lt_of_lt hm) (Nat.add_right_cancel h)
    omega
  · rintro ⟨rfl, rfl⟩
    rfl

theorem contains_insert (hm : m < t.width) (hn : n < t.width) (ho : t.origin ≤ o)
    (hp : t.origin ≤ p) :
    (t.insert n o).contains m p = (t.contains m p || decide (m = n ∧ p = o)) := by
  have hbits : (t.insert n o).contains m p =
      (t.bits ||| 1 <<< t.bit n o).testBit (t.bit m p) := rfl
  rw [hbits, Nat.testBit_or, Nat.one_shiftLeft, Nat.testBit_two_pow, contains]
  congr 2
  rw [eq_iff_iff, eq_comm]
  exact bit_inj hm hn ho hp

end Tried

/-! ## No choice twice -/

section Search

variable {α : Type} {T : Nat → Place → ChoiceTree Place} {width size : Nat} {origin : Place}

/-- The choices of the tree have these numbers, are made from `origin` on, and lead where `T` says
that they do. -/
def ChoiceTree.Keeps (T : Nat → Place → ChoiceTree Place) (numbers : Set Nat) (origin : Place) :
    ChoiceTree Place → Prop
  | leaf _ => True
  | node n s t u => n ∈ numbers ∧ origin.Precedes s ∧ T n s = node n s t u ∧
    t.Keeps T numbers origin ∧ u.Keeps T numbers origin

/-- The choices made so far have failed, but for those that are still under way: these lead to trees
of more than `size` choices. -/
structure Tried.Settled (T : Nat → Place → ChoiceTree Place) (width : Nat) (origin : Place)
    (size : Nat) (tried : Tried) : Prop where
  width_eq : tried.width = width
  origin_eq : tried.origin = origin.offset
  settled : ∀ n s, n < width → origin.Precedes s → tried.contains n s.offset = true →
    (T n s).answers = [] ∨ size < (T n s).size

structure Tried.InVain (T : Nat → Place → ChoiceTree Place) (width : Nat) (origin : Place)
    (tried tried' : Tried) : Prop where
  width_eq : tried'.width = tried.width
  origin_eq : tried'.origin = tried.origin
  failed : ∀ n s, n < width → origin.Precedes s → tried'.contains n s.offset = true →
    (T n s).answers = [] ∨ tried.contains n s.offset = true

namespace Tried

variable {tried u v : Tried} {n k : Nat} {s : Place}

/-- Nothing has been tried. -/
theorem settled_start (T : Nat → Place → ChoiceTree Place) (width : Nat) (origin : Place)
    (size : Nat) : Tried.Settled T width origin size { origin := origin.offset, width } where
  width_eq := rfl
  origin_eq := rfl
  settled n s _ _ h := by simp [contains] at h

theorem Settled.contains_insert (h : tried.Settled T width origin size) (hn : n < width)
    (hs : origin.Precedes s) {m : Nat} {t : Place} (hm : m < width) (ht : origin.Precedes t) :
    (tried.insert n s.offset).contains m t.offset = true ↔
      tried.contains m t.offset = true ∨ m = n ∧ t = s := by
  have hoffset : t.offset = s.offset ↔ t = s := ⟨ht.eq_of_offset hs, congrArg _⟩
  rw [Tried.contains_insert (h.width_eq ▸ hm) (h.width_eq ▸ hn) (h.origin_eq ▸ hs.le_offset)
    (h.origin_eq ▸ ht.le_offset), Bool.or_eq_true, decide_eq_true_eq, hoffset]

theorem Settled.insert (h : tried.Settled T width origin size) (hn : n < width)
    (hs : origin.Precedes s) (hk : k < size) (hsize : k < (T n s).size) :
    (tried.insert n s.offset).Settled T width origin k where
  width_eq := h.width_eq
  origin_eq := h.origin_eq
  settled m t hm ht hmade := by
    rcases (h.contains_insert hn hs hm ht).1 hmade with hmade | ⟨rfl, rfl⟩
    · exact (h.settled m t hm ht hmade).imp_right (Nat.lt_trans hk)
    · exact .inr hsize

theorem Settled.inVain (h : tried.Settled T width origin size)
    (hv : tried.InVain T width origin u) : u.Settled T width origin size where
  width_eq := hv.width_eq.trans h.width_eq
  origin_eq := hv.origin_eq.trans h.origin_eq
  settled m t hm ht hmade := (hv.failed m t hm ht hmade).elim .inl (h.settled m t hm ht)

theorem InVain.refl (tried : Tried) : tried.InVain T width origin tried :=
  ⟨rfl, rfl, fun _ _ _ _ => .inr⟩

theorem InVain.trans (h : tried.InVain T width origin u) (h' : u.InVain T width origin v) :
    tried.InVain T width origin v where
  width_eq := h'.width_eq.trans h.width_eq
  origin_eq := h'.origin_eq.trans h.origin_eq
  failed m t hm ht hmade := (h'.failed m t hm ht hmade).elim .inl (h.failed m t hm ht)

end Tried

namespace Pattern

variable {β : Type} {first second : Tried → Option β × Tried} {tried u : Tried} {b : β}

theorem orElse_of_none (h : first tried = (none, u)) : orElse first second tried = second u := by
  unfold orElse
  rw [h]

theorem orElse_of_some (h : (first tried).1 = some b) :
    (orElse first second tried).1 = some b := by
  unfold orElse
  split
  · next hnone =>
    rw [hnone] at h
    cases h
  · exact h

end Pattern

/-- A search answers what comes first; where there is no answer, all it has tried was in vain. -/
structure ChoiceTree.Finds (T : Nat → Place → ChoiceTree Place) (width : Nat) (origin : Place)
    (t : ChoiceTree α) (tried : Tried) : Prop where
  answer : (t.find tried).1 = t.answers.head?
  inVain : t.answers = [] → tried.InVain T width origin (t.find tried).2

namespace ChoiceTree

section Node

variable {n : Nat} {s : Place} {t u : ChoiceTree α} {f : α → Place} {tried : Tried}

theorem size_of_leads (h : T n s = (node n s t u).map f) :
    (T n s).size = t.size + u.size + 1 := by
  rw [h, size_map]
  rfl

theorem failed_of_leads (h : T n s = (node n s t u).map f) :
    (T n s).answers = [] ↔ t.answers ++ u.answers = [] := by
  rw [h, answers_map, List.map_eq_nil_iff]
  rfl

/-- The choice has been made, so there is no answer. -/
theorem Finds.passed (hmade : tried.contains n s.offset = true)
    (hnone : t.answers ++ u.answers = []) : (node n s t u).Finds T width origin tried := by
  have hfind : (node n s t u).find tried = (none, tried) := if_pos hmade
  exact ⟨by rw [hfind, answers, hnone]; rfl, fun _ => hfind ▸ .refl _⟩

theorem Finds.first (hmade : ¬ tried.contains n s.offset = true)
    (h : t.Finds T width origin (tried.insert n s.offset)) (hanswers : t.answers ≠ []) :
    (node n s t u).Finds T width origin tried := by
  obtain ⟨a, rest, hanswers⟩ := List.exists_cons_of_ne_nil hanswers
  have hfind : (node n s t u).find tried =
      Pattern.orElse t.find u.find (tried.insert n s.offset) := if_neg hmade
  have hanswer : (t.find (tried.insert n s.offset)).1 = some a := by
    rw [h.answer, hanswers]
    rfl
  refine ⟨?_, fun hnone => ?_⟩
  · rw [hfind, Pattern.orElse_of_some hanswer, answers, hanswers]
    rfl
  · rw [answers, hanswers] at hnone
    cases hnone

theorem Finds.second {size : Nat} (htried : tried.Settled T width origin size) (hn : n < width)
    (hs : origin.Precedes s) (hleads : T n s = (node n s t u).map f)
    (hmade : ¬ tried.contains n s.offset = true)
    (h : t.Finds T width origin (tried.insert n s.offset)) (hanswers : t.answers = [])
    (h' : u.Finds T width origin (t.find (tried.insert n s.offset)).2) :
    (node n s t u).Finds T width origin tried := by
  have hanswer : (t.find (tried.insert n s.offset)).1 = none := by
    rw [h.answer, hanswers]
    rfl
  have hfind : (node n s t u).find tried = u.find (t.find (tried.insert n s.offset)).2 :=
    (if_neg hmade).trans (Pattern.orElse_of_none (Prod.ext hanswer rfl))
  refine ⟨by rw [hfind, h'.answer, answers, hanswers]; rfl, fun hnone => ?_⟩
  rw [answers, hanswers] at hnone
  have hboth := (h.inVain hanswers).trans (h'.inVain hnone)
  rw [hfind]
  refine ⟨hboth.width_eq, hboth.origin_eq, fun m p hm hp hmade => ?_⟩
  rcases hboth.failed m p hm hp hmade with hfailed | hmade
  · exact .inl hfailed
  · rcases (htried.contains_insert hn hs hm hp).1 hmade with hmade | ⟨rfl, rfl⟩
    · exact .inr hmade
    · -- the choice itself has failed by now
      exact .inl ((failed_of_leads hleads).2 (by rw [hanswers, hnone]))

end Node

/-- The induction is on the tree; a part of it is smaller than what is under way. -/
theorem finds_of_keeps {f : α → Place} {t : ChoiceTree α}
    (ht : (t.map f).Keeps T (Set.Iio width) origin) {tried : Tried}
    (htried : tried.Settled T width origin t.size) : t.Finds T width origin tried := by
  induction t generalizing tried with
  | leaf answer => cases answer <;> exact ⟨rfl, fun _ => .refl _⟩
  | node n s t u iht ihu =>
    obtain ⟨hn, hs, hleads, ht, hu⟩ := ht
    rw [Set.mem_Iio] at hn
    have hsize : (T n s).size = t.size + u.size + 1 := size_of_leads hleads
    by_cases hmade : tried.contains n s.offset = true
    · have hfailed := (htried.settled n s hn hs hmade).resolve_right (hsize ▸ Nat.lt_irrefl _)
      exact .passed hmade ((failed_of_leads hleads).1 hfailed)
    · have hpart {k : Nat} (hk : k ≤ t.size + u.size) :
          (tried.insert n s.offset).Settled T width origin k :=
        htried.insert hn hs (Nat.lt_succ_of_le hk) (hsize ▸ Nat.lt_succ_of_le hk)
      have hfirst := iht ht (hpart (Nat.le_add_right ..))
      by_cases hanswers : t.answers = []
      · have hsecond := ihu hu ((hpart (Nat.le_add_left ..)).inVain (hfirst.inVain hanswers))
        exact .second htried hn hs hleads hmade hfirst hanswers hsecond
      · exact .first hmade hfirst hanswers

end ChoiceTree

end Search

end JayFrontEnd
