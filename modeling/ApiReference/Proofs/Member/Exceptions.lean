import ApiReference.ClassPage
import Mathlib.Data.List.Forall2
import Mathlib.Data.List.Perm.Basic

/-!
# Exceptions of methods

An exception is recorded once with the first method of its name, so that in which order exceptions
are recorded shows in no more than the order in which a method lists them.  Methods that differ in
that alone are alike (`Method.Alike`), and recording the same exceptions in any order leads from
methods that are alike to methods that are alike (`Method.foldl_raise_perm`).
-/

set_option autoImplicit false

namespace ApiReference

/-- Lists related place by place through a third one, if the relation is transitive. -/
theorem forall₂_trans {α : Type} {related : α → α → Prop} {left middle right : List α}
    (first : List.Forall₂ related left middle) (second : List.Forall₂ related middle right)
    (transitive : ∀ {earlier between later}, related earlier between → related between later →
      related earlier later) : List.Forall₂ related left right := by
  induction first generalizing right with
  | nil => exact second
  | cons here _ ih =>
    cases second with
    | cons next rest => exact .cons (transitive here next) (ih rest)

namespace Method

/-- The method without its exceptions. -/
def withoutExceptions (method : Method) : Method :=
  { method with exceptions := [] }

@[simp]
theorem withoutExceptions_addException (method : Method) (exception : RaisedException) :
    (method.addException exception).withoutExceptions = method.withoutExceptions := by
  unfold addException
  split <;> rfl

theorem exceptions_addException (method : Method) (exception : RaisedException) :
    (method.addException exception).exceptions =
      if exception ∈ method.exceptions then method.exceptions
      else method.exceptions ++ [exception] := by
  unfold addException
  split <;> rfl

/-- The same method, with the same exceptions in some order. -/
structure Alike (left right : Method) : Prop where
  rest : left.withoutExceptions = right.withoutExceptions
  exceptions : left.exceptions.Perm right.exceptions

namespace Alike

variable {left middle right : Method}

theorem refl (method : Method) : method.Alike method :=
  ⟨rfl, .refl _⟩

theorem trans (first : left.Alike middle) (second : middle.Alike right) : left.Alike right :=
  ⟨first.rest.trans second.rest, first.exceptions.trans second.exceptions⟩

theorem name (alike : left.Alike right) : left.name = right.name := by
  have same := congrArg Method.name alike.rest
  exact same

theorem addException (alike : left.Alike right) (exception : RaisedException) :
    (left.addException exception).Alike (right.addException exception) where
  rest := by
    rw [withoutExceptions_addException, withoutExceptions_addException, alike.rest]
  exceptions := by
    simp only [exceptions_addException, alike.exceptions.mem_iff]
    split
    · exact alike.exceptions
    · exact alike.exceptions.append_right _

end Alike

/-- Two exceptions may be recorded in either order. -/
theorem addException_comm (method : Method) (first second : RaisedException) :
    ((method.addException first).addException second).Alike
      ((method.addException second).addException first) where
  rest := by simp only [withoutExceptions_addException]
  exceptions := by
    simp only [exceptions_addException]
    by_cases firstKnown : first ∈ method.exceptions
    · by_cases secondKnown : second ∈ method.exceptions
      · simp only [firstKnown, secondKnown, if_true, List.Perm.refl]
      · simp [firstKnown, secondKnown]
    · by_cases secondKnown : second ∈ method.exceptions
      · simp [firstKnown, secondKnown]
      · by_cases same : first = second
        · simp [same]
        · simpa [firstKnown, secondKnown, same, Ne.symm same] using
            (List.Perm.swap second first []).append_left method.exceptions

/-! ## Lists of methods -/

/-- Record an exception with the first method of a name in a list. -/
def raise (methods : List Method) (raised : String × RaisedException) : List Method :=
  (addExceptionTo raised.1 raised.2 methods).1

theorem raise_cons (first : Method) (later : List Method) (raised : String × RaisedException) :
    raise (first :: later) raised =
      if first.name = raised.1 then first.addException raised.2 :: later
      else first :: raise later raised := by
  rw [raise, addExceptionTo]
  split <;> rfl

theorem names_raise (methods : List Method) (raised : String × RaisedException) :
    (raise methods raised).map name = methods.map name := by
  induction methods with
  | nil => rfl
  | cons first later ih =>
    rw [raise_cons]
    split
    · rw [List.map_cons, List.map_cons, name_addException]
    · rw [List.map_cons, List.map_cons, ih]

theorem forall₂_alike_refl (methods : List Method) : List.Forall₂ Alike methods methods :=
  List.forall₂_same.mpr fun method _ => .refl method

theorem forall₂_alike_trans {left middle right : List Method}
    (first : List.Forall₂ Alike left middle) (second : List.Forall₂ Alike middle right) :
    List.Forall₂ Alike left right :=
  forall₂_trans first second Alike.trans

theorem forall₂_raise {left right : List Method} (alike : List.Forall₂ Alike left right)
    (raised : String × RaisedException) :
    List.Forall₂ Alike (raise left raised) (raise right raised) := by
  induction alike with
  | nil => exact .nil
  | cons first later ih =>
    rw [raise_cons, raise_cons, first.name]
    split
    · exact .cons (first.addException raised.2) later
    · exact .cons first ih

/-- Two exceptions may be recorded in either order. -/
theorem forall₂_raise_comm (methods : List Method) (first second : String × RaisedException) :
    List.Forall₂ Alike (raise (raise methods first) second)
      (raise (raise methods second) first) := by
  induction methods with
  | nil => exact .nil
  | cons method later ih =>
    by_cases isFirst : method.name = first.1
    · by_cases isSecond : method.name = second.1
      · simp only [raise_cons, name_addException, if_pos isFirst, if_pos isSecond]
        exact .cons (method.addException_comm first.2 second.2) (forall₂_alike_refl later)
      · simp only [raise_cons, name_addException, if_pos isFirst, if_neg isSecond]
        exact forall₂_alike_refl _
    · by_cases isSecond : method.name = second.1
      · simp only [raise_cons, name_addException, if_neg isFirst, if_pos isSecond]
        exact forall₂_alike_refl _
      · simp only [raise_cons, if_neg isFirst, if_neg isSecond]
        exact .cons (.refl method) ih

theorem forall₂_foldl_raise {left right : List Method} (alike : List.Forall₂ Alike left right)
    (raised : List (String × RaisedException)) :
    List.Forall₂ Alike (raised.foldl raise left) (raised.foldl raise right) := by
  induction raised generalizing left right with
  | nil => exact alike
  | cons first later ih => exact ih (forall₂_raise alike first)

/-- Exceptions may be recorded in any order. -/
theorem foldl_raise_perm {raised others : List (String × RaisedException)}
    (reordered : raised.Perm others) (methods : List Method) :
    List.Forall₂ Alike (raised.foldl raise methods) (others.foldl raise methods) := by
  induction reordered generalizing methods with
  | nil => exact forall₂_alike_refl methods
  | cons first _ ih => exact ih (raise methods first)
  | swap first second later =>
    exact forall₂_foldl_raise (forall₂_raise_comm methods second first) later
  | trans _ _ ihFirst ihSecond => exact forall₂_alike_trans (ihFirst methods) (ihSecond methods)

end Method

end ApiReference
