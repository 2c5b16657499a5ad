import Mathlib.Data.List.Basic

/-!
# Lists without repetition

Elements are added to a list one after another, each unless there is one like it. What comes of it
is the list of those elements that are the first of their like.
-/

namespace JayFrontEnd

variable {α : Type} (r : α → α → Bool)

/-- Adds an element unless there is one like it. -/
def addNew (xs : List α) (x : α) : List α := if xs.any (r x) then xs else xs ++ [x]

theorem addNew_eq (xs : List α) (x : α) :
    addNew r xs x = if ∀ y ∈ xs, ¬ r x y = true then xs ++ [x] else xs := by
  simp only [addNew, List.any_eq_true]
  split
  · next h => rw [if_neg fun hn => h.elim fun y hy => hn y hy.1 hy.2]
  · next h => rw [if_pos fun y hy hr => h ⟨y, hy, hr⟩]

theorem foldl_addNew (xs ys : List α) :
    xs.foldl (addNew r) ys = ys ++ (xs.filter fun x => !ys.any (r x)).eraseDupsBy r := by
  induction xs generalizing ys with
  | nil => exact (List.append_nil ys).symm
  | cons x xs ih =>
    rw [List.foldl_cons, ih, addNew]
    cases hx : ys.any (r x) with
    | true => simp [hx]
    | false =>
      simp only [Bool.false_eq_true, if_false, List.filter_cons, hx, Bool.not_false, if_true,
        List.eraseDupsBy_cons, List.append_assoc, List.singleton_append, List.filter_filter]
      simp [Bool.and_comm]

theorem foldl_addNew_nil (xs : List α) : xs.foldl (addNew r) [] = xs.eraseDupsBy r := by
  rw [foldl_addNew, List.nil_append]
  exact congrArg (List.eraseDupsBy r) (List.filter_eq_self.2 fun _ _ => rfl)

theorem eraseDupsBy_concat (xs : List α) (x : α) :
    (xs ++ [x]).eraseDupsBy r = addNew r (xs.eraseDupsBy r) x := by
  simp only [← foldl_addNew_nil, List.foldl_append, List.foldl_cons, List.foldl_nil]

theorem eraseDupsBy_sublist (xs : List α) : (xs.eraseDupsBy r).Sublist xs := by
  have h : ∀ ys : List α, (xs.foldl (addNew r) ys).Sublist (ys ++ xs) := by
    induction xs with
    | nil => intro ys; simp
    | cons x xs ih =>
      intro ys
      have hadd : (addNew r ys x).Sublist (ys ++ [x]) := by
        unfold addNew
        split
        · exact List.sublist_append_left ..
        · exact .refl _
      rw [List.foldl_cons, List.append_cons]
      exact (ih _).trans (hadd.append_right _)
  rw [← foldl_addNew_nil]
  exact h []

theorem exists_mem_eraseDupsBy {xs : List α} {x : α} (hx : x ∈ xs) :
    ∃ y ∈ xs.eraseDupsBy r, y = x ∨ r x y = true := by
  rw [← foldl_addNew_nil]
  generalize ([] : List α) = ys
  induction xs generalizing ys with
  | nil => cases hx
  | cons z xs ih =>
    rw [List.foldl_cons]
    rcases List.mem_cons.1 hx with rfl | hx
    · have hadd : ∃ y ∈ addNew r ys x, y = x ∨ r x y = true := by
        unfold addNew
        split
        · next h => exact (List.any_eq_true.1 h).imp fun y hy => ⟨hy.1, .inr hy.2⟩
        · exact ⟨x, List.mem_append_right _ (List.mem_singleton_self x), .inl rfl⟩
      obtain ⟨y, hy, hlike⟩ := hadd
      rw [foldl_addNew]
      exact ⟨y, List.mem_append_left _ hy, hlike⟩
    · exact ih hx _

end JayFrontEnd
