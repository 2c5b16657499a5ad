import Mathlib.Data.List.Forall2

/-!
# Results of work that may fail

A sequence of work succeeds if each piece does: two pieces one after another, or one piece for each
element of a list. Lists whose elements correspond have corresponding members.
-/

namespace JayFrontEnd

variable {α β ε : Type}

theorem Except.bind_eq_ok {x : Except ε α} {f : α → Except ε β} {b : β} :
    x >>= f = .ok b ↔ ∃ a, x = .ok a ∧ f a = .ok b := by
  cases x with
  | error e => exact ⟨fun h => (by cases h), fun ⟨a, h, _⟩ => (by cases h)⟩
  | ok a => exact ⟨fun h => ⟨a, rfl, h⟩, fun ⟨_, rfl, h⟩ => h⟩

theorem Except.toOption_eq_some {x : Except ε α} {a : α} : x.toOption = some a ↔ x = .ok a := by
  cases x with
  | error e => exact ⟨fun h => (by cases h), fun h => (by cases h)⟩
  | ok b => exact ⟨fun h => congrArg _ (Option.some.inj h), fun h => congrArg _ (Except.ok.inj h)⟩

theorem Except.map_eq_error {x : Except ε α} {f : α → β} {e : ε} :
    x.map f = .error e ↔ x = .error e := by
  cases x with
  | error e =>
    exact ⟨fun h => congrArg _ (Except.error.inj h), fun h => congrArg _ (Except.error.inj h)⟩
  | ok a => exact ⟨nofun, nofun⟩

theorem Except.mapM_eq_ok {f : α → Except ε β} {xs : List α} {ys : List β} :
    xs.mapM f = .ok ys ↔ List.Forall₂ (fun x y => f x = .ok y) xs ys := by
  induction xs generalizing ys with
  | nil =>
    rw [List.mapM_nil, List.forall₂_nil_left_iff]
    exact ⟨fun h => by cases h; rfl, fun h => by rw [h]; rfl⟩
  | cons x xs ih =>
    simp only [List.mapM_cons, bind_eq_ok, ih, List.forall₂_cons_left_iff]
    constructor
    · rintro ⟨y, hy, zs, hzs, h⟩
      cases h
      exact ⟨y, zs, hy, hzs, rfl⟩
    · rintro ⟨y, zs, hy, hzs, rfl⟩
      exact ⟨y, hy, zs, hzs, rfl⟩

theorem Except.exists_mapM_eq_ok {f : α → Except ε β} {xs : List α} :
    (∃ ys, xs.mapM f = .ok ys) ↔ ∀ x ∈ xs, ∃ y, f x = .ok y := by
  induction xs with
  | nil => exact ⟨fun _ => nofun, fun _ => ⟨[], rfl⟩⟩
  | cons x xs ih =>
    simp only [List.mapM_cons, bind_eq_ok, List.forall_mem_cons, ← ih]
    constructor
    · rintro ⟨_, y, hy, ys, hys, -⟩
      exact ⟨⟨y, hy⟩, ys, hys⟩
    · rintro ⟨⟨y, hy⟩, ys, hys⟩
      exact ⟨_, y, hy, ys, hys, rfl⟩

/-- Work on a list fails as the first of its pieces that fails does. -/
theorem Except.mapM_eq_error {f : α → Except ε β} {xs : List α} {e : ε} :
    xs.mapM f = .error e ↔ ∃ before x after, xs = before ++ x :: after ∧
      (∀ y ∈ before, ∃ b, f y = .ok b) ∧ f x = .error e := by
  induction xs with
  | nil =>
    refine ⟨nofun, ?_⟩
    rintro ⟨before, x, after, hxs, -⟩
    exact absurd hxs (by simp)
  | cons x xs ih =>
    rw [List.mapM_cons]
    cases hx : f x with
    | error e' =>
      have hfirst : (do let b ← Except.error e'; let bs ← xs.mapM f; pure (b :: bs)) = .error e ↔
          (.error e' : Except ε β) = .error e := by
        exact ⟨fun h => congrArg _ (Except.error.inj h), fun h => congrArg _ (Except.error.inj h)⟩
      refine hfirst.trans ⟨fun h => ⟨[], x, xs, rfl, nofun, hx.trans h⟩, ?_⟩
      rintro ⟨_ | ⟨y, before⟩, z, after, hxs, hbefore, hz⟩
      · cases hxs
        exact hx.symm.trans hz
      · cases hxs
        obtain ⟨b, hb⟩ := hbefore _ (List.mem_cons_self ..)
        cases hx.symm.trans hb
    | ok b =>
      have hrest : (do let bs ← xs.mapM f; pure (b :: bs)) = .error e ↔ xs.mapM f = .error e := by
        cases xs.mapM f with
        | error e' => exact Iff.rfl
        | ok bs => exact ⟨nofun, nofun⟩
      refine hrest.trans (ih.trans ⟨?_, ?_⟩)
      · rintro ⟨before, z, after, rfl, hbefore, hz⟩
        exact ⟨x :: before, z, after, rfl, List.forall_mem_cons.2 ⟨⟨b, hx⟩, hbefore⟩, hz⟩
      · rintro ⟨_ | ⟨y, before⟩, z, after, hxs, hbefore, hz⟩
        · cases hxs
          cases hx.symm.trans hz
        · cases hxs
          exact ⟨before, z, after, rfl, (List.forall_mem_cons.1 hbefore).2, hz⟩

/-- If each piece of work succeeds in all settings alike, or fails in all of them for one reason,
so does the whole. -/
theorem Except.mapM_uniform {ι π : Type} {f : ι → α → Except ε β} {g : ι → π → ε}
    (h : ∀ x, (∃ y, ∀ i, f i x = .ok y) ∨ ∃ p, ∀ i, f i x = .error (g i p)) (xs : List α) :
    (∃ ys, ∀ i, xs.mapM (f i) = .ok ys) ∨ ∃ p, ∀ i, xs.mapM (f i) = .error (g i p) := by
  induction xs with
  | nil => exact .inl ⟨[], fun _ => rfl⟩
  | cons x xs ih =>
    simp only [List.mapM_cons]
    rcases h x with ⟨y, hy⟩ | ⟨p, hp⟩
    · simp only [hy]
      rcases ih with ⟨ys, hys⟩ | ⟨p, hp⟩
      · exact .inl ⟨y :: ys, fun i => by rw [hys]; rfl⟩
      · exact .inr ⟨p, fun i => by rw [hp]; rfl⟩
    · exact .inr ⟨p, fun i => by rw [hp]; rfl⟩

/-- Both pieces of work succeed, with related answers, or neither does. -/
def SucceedAlike (R : α → β → Prop) : Except ε α → Except ε β → Prop
  | .ok a, .ok b => R a b
  | .error _, .error _ => True
  | _, _ => False

theorem SucceedAlike.mono {R S : α → β → Prop} {x : Except ε α} {y : Except ε β}
    (h : SucceedAlike R x y) (hRS : ∀ {a b}, R a b → S a b) : SucceedAlike S x y := by
  cases x <;> cases y
  · trivial
  · cases h
  · cases h
  · exact hRS h

theorem succeedAlike_of_toOption {γ : Type} {f : α → γ} {g : β → γ} {x : Except ε α}
    {y : Except ε β} (h : x.toOption.map f = y.toOption.map g) :
    SucceedAlike (fun a b => f a = g b) x y := by
  cases x <;> cases y
  · trivial
  · cases h
  · cases h
  · exact Option.some.inj h

/-- There is one first element that does not pass a test. -/
theorem split_unique {P : α → Prop} {before after before' after' : List α} {x y : α}
    (h : before ++ x :: after = before' ++ y :: after') (hbefore : ∀ z ∈ before, P z) (hx : ¬ P x)
    (hbefore' : ∀ z ∈ before', P z) (hy : ¬ P y) : before = before' ∧ x = y ∧ after = after' := by
  induction before generalizing before' with
  | nil =>
    cases before' with
    | nil => cases h; exact ⟨rfl, rfl, rfl⟩
    | cons z before' => cases h; exact absurd (hbefore' _ (List.mem_cons_self ..)) hx
  | cons z before ih =>
    cases before' with
    | nil => cases h; exact absurd (hbefore _ (List.mem_cons_self ..)) hy
    | cons w before' =>
      obtain ⟨hzw, htail⟩ := List.cons.inj h
      obtain ⟨rfl, hxy⟩ := ih htail (List.forall_mem_cons.1 hbefore).2
        (List.forall_mem_cons.1 hbefore').2
      exact ⟨by rw [hzw], hxy⟩

section Corresponding

variable {R : α → β → Prop} {xs : List α} {ys : List β}

theorem exists_of_mem_right (h : List.Forall₂ R xs ys) {y : β} (hy : y ∈ ys) :
    ∃ x ∈ xs, R x y := by
  induction h with
  | nil => cases hy
  | @cons x z xs ys hxz _ ih =>
    rcases List.mem_cons.1 hy with rfl | hy
    · exact ⟨x, List.mem_cons_self .., hxz⟩
    · obtain ⟨w, hw, hr⟩ := ih hy
      exact ⟨w, List.mem_cons_of_mem _ hw, hr⟩

/-- What stands before an element on the right corresponds to what stands before its partner. -/
theorem exists_split (h : List.Forall₂ R xs ys) {before after : List β} {y : β}
    (hys : ys = before ++ y :: after) : ∃ before' x after', xs = before' ++ x :: after' ∧ R x y ∧
      List.Forall₂ R before' before := by
  subst hys
  induction before generalizing xs with
  | nil =>
    obtain ⟨x, xs, hxy, -, rfl⟩ := List.forall₂_cons_right_iff.1 h
    exact ⟨[], x, xs, rfl, hxy, .nil⟩
  | cons z before ih =>
    obtain ⟨w, xs, hwz, hrest, rfl⟩ := List.forall₂_cons_right_iff.1 h
    obtain ⟨before', x, after', rfl, hxy, hbefore⟩ := ih hrest
    exact ⟨w :: before', x, after', rfl, hxy, .cons hwz hbefore⟩

theorem corresponding_trans {γ : Type} {S : β → γ → Prop} {T : α → γ → Prop} {zs : List γ}
    (h : List.Forall₂ R xs ys) (h' : List.Forall₂ S ys zs)
    (hT : ∀ {x y z}, R x y → S y z → T x z) : List.Forall₂ T xs zs := by
  induction h generalizing zs with
  | nil => cases h'; exact .nil
  | cons hxy _ ih => cases h' with | cons hyz h' => exact .cons (hT hxy hyz) (ih h')

theorem exists_of_mem_left (h : List.Forall₂ R xs ys) {x : α} (hx : x ∈ xs) : ∃ y ∈ ys, R x y :=
  exists_of_mem_right h.flip hx

theorem filterMap_of_corresponding {f : α → Option β}
    (h : List.Forall₂ (fun x y => f x = some y) xs ys) : xs.filterMap f = ys := by
  induction h with
  | nil => rfl
  | cons hxy _ ih => rw [List.filterMap_cons_some hxy, ih]

end Corresponding

end JayFrontEnd
