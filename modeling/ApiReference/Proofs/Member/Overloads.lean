import ApiReference.Proofs.Member.Absorption
import ApiReference.Proofs.Member.Grouping

/-!
# A page declares every overload once

A method that is added to a list either agrees with none of the methods there and is put in
somewhere (`exists_insertGrouped`), or the first one it agrees with absorbs it
(`exists_of_matching?`).  Both keep the methods distinct.  The second does so although the method
that absorbs may change its types: it covers what it becomes, so that it agreed before with all that
the result agrees with (`DistinctOverloads.absorbAt`).

Pages are filled by adding methods, and their methods are added anew when aliases have been
substituted.  So no two methods of a page ever declare the same overload
(`distinctOverloads_of_changes`).
-/

set_option autoImplicit false

namespace ApiReference

namespace Method

variable {signature : Signature} {methods front behind : List Method} {method : Method}
  {found : MatchingMethod}

/-! ## The method that is found -/

theorem matching?_eq_none_iff :
    matching? signature methods = none ↔
      ∀ method ∈ methods, ¬ method.signature.Agrees signature := by
  induction methods with
  | nil => simp [matching?]
  | cons first later ih =>
    rw [matching?, List.forall_mem_cons, ← ih, Signature.Agrees, not_not]
    cases first.signature.agreement? signature with
    | none => simp
    | some agreement => simp

/-- What is found is the first method that agrees. -/
theorem exists_of_matching? (matched : matching? signature methods = some found) :
    ∃ front behind, methods = front ++ found.method :: behind ∧ front.length = found.position ∧
      matching? signature front = none ∧
      found.method.signature.agreement? signature = some found.agreement := by
  induction methods generalizing found with
  | nil => cases matched
  | cons first later ih =>
    rw [matching?] at matched
    cases agree : first.signature.agreement? signature with
    | some agreement =>
      rw [agree] at matched
      obtain rfl := Option.some.inj matched
      exact ⟨[], later, rfl, rfl, rfl, agree⟩
    | none =>
      rw [agree] at matched
      obtain ⟨foundLater, matchedLater, rfl⟩ := Option.map_eq_some_iff.mp matched
      obtain ⟨front, behind, rfl, position, none, agrees⟩ := ih matchedLater
      refine ⟨first :: front, behind, rfl, congrArg Nat.succ position, ?_, agrees⟩
      rw [matching?, agree, none]
      rfl

/-- The first method that agrees is found. -/
theorem matching?_append_cons {agreement : Agreement} (none : matching? signature front = none)
    (agree : method.signature.agreement? signature = some agreement) :
    matching? signature (front ++ method :: behind) = some ⟨front.length, method, agreement⟩ := by
  induction front with
  | nil => rw [List.nil_append, matching?, agree]; rfl
  | cons first later ih =>
    rw [matching?_eq_none_iff, List.forall_mem_cons, Signature.Agrees, not_not,
      ← matching?_eq_none_iff] at none
    rw [List.cons_append, matching?, none.1, ih none.2]
    rfl

/-- The method at the place that was found takes over the declaration, and the others stay. -/
theorem absorbAt_append_cons (later : Method) (position : front.length = found.position) :
    absorbAt found later (front ++ method :: behind) =
      front ++ method.absorb later found.agreement :: behind := by
  rw [absorbAt, ← position, List.modify_eq_take_cons_drop (by simp), List.take_left' rfl,
    List.drop_append]
  simp

/-! ## Distinct methods -/

/-- No two methods of the list declare the same overload, whichever is seen as the earlier. -/
def DistinctOverloads (methods : List Method) : Prop :=
  methods.Pairwise fun left right => left.agreement? right = none ∧ right.agreement? left = none

instance (methods : List Method) : Decidable (DistinctOverloads methods) :=
  inferInstanceAs (Decidable (methods.Pairwise _))

theorem distinctOverloads_iff :
    DistinctOverloads methods ↔
      methods.Pairwise fun left right => ¬ left.signature.Agrees right.signature := by
  refine List.Pairwise.iff fun left right => ?_
  rw [agreement?, agreement?, ← Signature.not_agrees_iff, ← Signature.not_agrees_iff]
  exact ⟨And.left, fun apart => ⟨apart, fun agrees => apart agrees.symm⟩⟩

/-- A method in the midst of others agrees with none of them, whatever its place. -/
theorem distinctOverloads_append_cons :
    DistinctOverloads (front ++ method :: behind) ↔
      (∀ other ∈ front ++ behind, ¬ method.signature.Agrees other.signature) ∧
        DistinctOverloads (front ++ behind) := by
  rw [distinctOverloads_iff, distinctOverloads_iff, List.pairwise_middle, List.pairwise_cons]
  exact fun apart agrees => apart agrees.symm

theorem DistinctOverloads.perm {sorted : List Method} (distinct : DistinctOverloads methods)
    (same : methods.Perm sorted) : DistinctOverloads sorted := by
  rw [distinctOverloads_iff] at distinct ⊢
  exact distinct.perm same fun apart agrees => apart agrees.symm

/-- Putting in a method keeps methods distinct exactly if it agrees with none of them. -/
theorem distinctOverloads_insertGrouped_iff (distinct : DistinctOverloads methods) :
    DistinctOverloads (insertGrouped methods method) ↔
      ∀ other ∈ methods, ¬ method.signature.Agrees other.signature := by
  obtain ⟨front, behind, rfl, inserted, -⟩ := exists_insertGrouped methods method
  rw [inserted, distinctOverloads_append_cons]
  exact and_iff_left distinct

/-- Absorbing a declaration keeps methods distinct.  If the result agreed with another method, the
one that absorbs would have agreed with it before. -/
theorem DistinctOverloads.absorbAt (distinct : DistinctOverloads methods) {later : Method}
    (matched : matching? later.signature methods = some found) :
    DistinctOverloads (absorbAt found later methods) := by
  obtain ⟨front, behind, rfl, position, -, agree⟩ := exists_of_matching? matched
  rw [absorbAt_append_cons later position]
  rw [distinctOverloads_append_cons] at distinct ⊢
  obtain ⟨apart, others⟩ := distinct
  refine ⟨fun other member agrees => apart other member ?_, others⟩
  exact (covers_absorb agree).agrees agrees

theorem DistinctOverloads.addTo (distinct : DistinctOverloads methods) (method : Method) :
    DistinctOverloads (addTo methods method) := by
  rw [Method.addTo]
  cases matched : matching? method.signature methods with
  | some found => exact distinct.absorbAt matched
  | none =>
    rw [distinctOverloads_insertGrouped_iff distinct]
    intro other member agrees
    exact matching?_eq_none_iff.mp matched other member agrees.symm

theorem distinctOverloads_deduplicate (methods : List Method) :
    DistinctOverloads (deduplicate methods) :=
  List.foldlRecOn methods Method.addTo List.Pairwise.nil
    fun _ distinct method _ => distinct.addTo method

end Method

/-! ## Pages -/

/-- A change of the methods of a page. -/
inductive PageChange where
  | addMethod (method : Method)
  | normalize (expanded : ExpandedTable)
  | sort

/-- Change a page. -/
def PageChange.apply : PageChange → ClassPage → ClassPage
  | addMethod method, page => page.addMethod method
  | normalize expanded, page => page.normalize expanded
  | sort, page => page.sort

namespace ClassPage

/-- No two methods of the page declare the same overload. -/
def HasDistinctOverloads (page : ClassPage) : Prop :=
  Method.DistinctOverloads page.methods

instance (page : ClassPage) : Decidable page.HasDistinctOverloads :=
  inferInstanceAs (Decidable (Method.DistinctOverloads page.methods))

/-- Substituting aliases makes methods distinct, whatever they were before. -/
theorem hasDistinctOverloads_normalize (expanded : ExpandedTable) (page : ClassPage) :
    (page.normalize expanded).HasDistinctOverloads :=
  Method.distinctOverloads_deduplicate _

theorem HasDistinctOverloads.change {page : ClassPage} (distinct : page.HasDistinctOverloads)
    (change : PageChange) : (change.apply page).HasDistinctOverloads := by
  cases change with
  | addMethod method => exact Method.DistinctOverloads.addTo distinct method
  | normalize expanded => exact page.hasDistinctOverloads_normalize expanded
  | sort => exact Method.DistinctOverloads.perm distinct (List.mergeSort_perm _ _).symm

/-- No two methods of a page declare the same overload, whatever methods have been added to the
empty page of a class, and however often aliases were substituted and the members sorted in between.
Substitution alone is enough to make them distinct. -/
theorem distinctOverloads_of_changes (name : String) (scope : Scope) (changes : List PageChange) :
    (changes.foldl (fun page (change : PageChange) => change.apply page)
        { ofName name with scope }).HasDistinctOverloads ∧
      ∀ (page : ClassPage) (expanded : ExpandedTable),
        (page.normalize expanded).HasDistinctOverloads := by
  refine ⟨?_, fun page expanded => page.hasDistinctOverloads_normalize expanded⟩
  exact List.foldlRecOn changes _ List.Pairwise.nil
    fun _ distinct change _ => HasDistinctOverloads.change distinct change

end ClassPage

end ApiReference
