import ApiReference.Proofs.Member.Agreement

/-!
# Absorbing a declaration

When a method absorbs another declaration, its signature becomes that of the later declaration or
stays as it is (`signature_absorb`).  In either case it gets no wider: the method covers what it
becomes (`covers_absorb`).  The later declaration covers the result too, unless both declarations
needed wildcards (`later_covers_absorb`).

A declaration that has been absorbed has nothing more to say.  The result still agrees with it, and
absorbing it once more changes nothing (`absorb_absorb`).
-/

set_option autoImplicit false

namespace ApiReference

/-! ## Parameters -/

/-- Absorbing the same declaration again leaves a parameter as it is. -/
theorem Parameter.absorb_absorb (adoptType : Bool) (earlier later : Parameter) :
    (earlier.absorb adoptType later).absorb false later = earlier.absorb adoptType later := by
  by_cases empty : earlier.description = "" <;> by_cases unnamed : later.name = "" <;>
    simp [Parameter.absorb, empty, unnamed]

theorem absorbParameters_absorbParameters (adoptTypes : Bool) (earlier later : List Parameter) :
    absorbParameters false (absorbParameters adoptTypes earlier later) later =
      absorbParameters adoptTypes earlier later := by
  induction earlier generalizing later with
  | nil => rfl
  | cons first rest ih =>
    cases later with
    | nil => rfl
    | cons first' rest' =>
      rw [absorbParameters, absorbParameters, ih, Parameter.absorb_absorb]

/-- Types that are not adopted stay. -/
theorem types_absorbParameters_false (earlier later : List Parameter) :
    (absorbParameters false earlier later).map Parameter.type = earlier.map Parameter.type := by
  induction earlier generalizing later with
  | nil => rfl
  | cons first rest ih =>
    cases later with
    | nil => rfl
    | cons first' rest' =>
      rw [absorbParameters, List.map_cons, ih]
      rfl

/-- Types that are adopted take the place of equally many. -/
theorem types_absorbParameters_true {earlier later : List Parameter}
    (sameLength : earlier.length = later.length) :
    (absorbParameters true earlier later).map Parameter.type = later.map Parameter.type := by
  induction earlier generalizing later with
  | nil =>
    rw [List.length_nil, eq_comm, List.length_eq_zero_iff] at sameLength
    rw [sameLength]
    rfl
  | cons first rest ih =>
    cases later with
    | nil => cases sameLength
    | cons first' rest' =>
      rw [absorbParameters, List.map_cons, ih (Nat.succ.inj sameLength)]
      rfl

namespace Method

/-! ## Exceptions -/

/-- Recording exceptions changes nothing but their list, which gets the new ones. -/
theorem foldl_addException (exceptions : List RaisedException) (method : Method) :
    ∃ listed, exceptions.foldl addException method = { method with exceptions := listed } ∧
      ∀ exception, exception ∈ listed ↔ exception ∈ method.exceptions ∨ exception ∈ exceptions := by
  induction exceptions generalizing method with
  | nil => exact ⟨method.exceptions, rfl, fun exception => by simp⟩
  | cons first rest ih =>
    obtain ⟨listed, recorded, members⟩ := ih (method.addException first)
    refine ⟨listed, ?_, fun exception => ?_⟩
    · rw [List.foldl_cons, recorded, addException]
      split <;> rfl
    · rw [members, addException]
      split
      · rename_i known
        constructor
        · rintro (inMethod | inRest)
          · exact Or.inl inMethod
          · exact Or.inr (List.mem_cons_of_mem first inRest)
        · rintro (inMethod | inAll)
          · exact Or.inl inMethod
          · rcases List.mem_cons.mp inAll with rfl | inRest
            · exact Or.inl known
            · exact Or.inr inRest
      · simp [or_assoc]

/-- Recording exceptions that are all listed changes nothing. -/
theorem foldl_addException_of_subset {exceptions : List RaisedException} {method : Method}
    (listed : exceptions ⊆ method.exceptions) : exceptions.foldl addException method = method := by
  induction exceptions with
  | nil => rfl
  | cons first rest ih =>
    obtain ⟨known, restListed⟩ := List.cons_subset.mp listed
    rw [List.foldl_cons, addException, if_pos known]
    exact ih restListed

/-! ## What is absorbed -/

variable {earlier later : Method} {agreement : Agreement}

/-- A method with what it takes over, and its exceptions with the new ones. -/
theorem absorb_eq (earlier later : Method) (agreement : Agreement) :
    ∃ listed, earlier.absorb later agreement =
        { name := earlier.name
          description := if later.description = "" then earlier.description else later.description
          parameters := absorbParameters (agreement.canonicalSide = .later) earlier.parameters
            later.parameters
          returnType :=
            if agreement.canonicalSide = .later then later.returnType else earlier.returnType
          isStatic := earlier.isStatic || later.isStatic
          exceptions := listed } ∧
      ∀ exception, exception ∈ listed ↔
        exception ∈ earlier.exceptions ∨ exception ∈ later.exceptions := by
  simp only [absorb, decide_eq_true_eq]
  exact foldl_addException later.exceptions _

theorem description_absorb (earlier later : Method) (agreement : Agreement) :
    (earlier.absorb later agreement).description =
      if later.description = "" then earlier.description else later.description := by
  obtain ⟨listed, result, -⟩ := absorb_eq earlier later agreement
  rw [result]

theorem parameters_absorb (earlier later : Method) (agreement : Agreement) :
    (earlier.absorb later agreement).parameters =
      absorbParameters (agreement.canonicalSide = .later) earlier.parameters
        later.parameters := by
  obtain ⟨listed, result, -⟩ := absorb_eq earlier later agreement
  rw [result]

theorem returnType_absorb (earlier later : Method) (agreement : Agreement) :
    (earlier.absorb later agreement).returnType =
      if agreement.canonicalSide = .later then later.returnType else earlier.returnType := by
  obtain ⟨listed, result, -⟩ := absorb_eq earlier later agreement
  rw [result]

theorem isStatic_absorb (earlier later : Method) (agreement : Agreement) :
    (earlier.absorb later agreement).isStatic = (earlier.isStatic || later.isStatic) := by
  obtain ⟨listed, result, -⟩ := absorb_eq earlier later agreement
  rw [result]

theorem mem_exceptions_absorb {exception : RaisedException} :
    exception ∈ (earlier.absorb later agreement).exceptions ↔
      exception ∈ earlier.exceptions ∨ exception ∈ later.exceptions := by
  obtain ⟨listed, result, members⟩ := absorb_eq earlier later agreement
  rw [result]
  exact members exception

/-! ## The signature of the result -/

/-- The types are those of the later declaration, or else stay. -/
theorem signature_absorb (agree : earlier.agreement? later = some agreement) :
    (earlier.absorb later agreement).signature =
      if agreement.canonicalSide = .later then later.signature else earlier.signature := by
  obtain ⟨sameName, sameSlots⟩ := Signature.agrees_iff.mp (Signature.agrees_of_agreement? agree)
  have sameLength : earlier.parameters.length = later.parameters.length := by
    simpa [Signature.slots, signature] using sameSlots.length_eq
  rw [signature, name_absorb, returnType_absorb, parameters_absorb]
  by_cases adopts : agreement.canonicalSide = .later
  · rw [decide_eq_true adopts, if_pos adopts, if_pos adopts, types_absorbParameters_true sameLength]
    exact congrArg (Signature.mk · later.returnType _) sameName
  · rw [decide_eq_false adopts, if_neg adopts, if_neg adopts, types_absorbParameters_false]
    rfl

/-- A method covers what it becomes. -/
theorem covers_absorb (agree : earlier.agreement? later = some agreement) :
    earlier.signature.Covers (earlier.absorb later agreement).signature := by
  rw [signature_absorb agree]
  split
  · rename_i adopts
    exact Signature.covers_of_laterWildcard agree
      (Agreement.canonicalSide_eq_later_iff.mp adopts).2
  · exact Signature.Covers.refl earlier.signature

/-- A declaration covers what has absorbed it, unless both sides needed wildcards. -/
theorem later_covers_absorb (agree : earlier.agreement? later = some agreement)
    (oneSided : agreement ≠ ⟨true, true⟩) :
    later.signature.Covers (earlier.absorb later agreement).signature := by
  rw [signature_absorb agree]
  split
  · exact Signature.Covers.refl later.signature
  · rename_i keeps
    refine Signature.covers_of_earlierWildcard agree ?_
    rw [Agreement.canonicalSide_eq_later_iff] at keeps
    rcases agreement with ⟨_ | _, _ | _⟩ <;> simp_all

/-! ## Absorbing again -/

/-- Where the types stay, absorbing a declaration again changes nothing. -/
theorem absorb_of_absorbed {settled : Agreement} (keeps : settled.canonicalSide ≠ .later) :
    (earlier.absorb later agreement).absorb later settled = earlier.absorb later agreement := by
  have sameDescription : (if later.description = ""
      then (earlier.absorb later agreement).description else later.description) =
        (earlier.absorb later agreement).description := by
    rw [description_absorb]
    split <;> rfl
  have sameParameters : absorbParameters false (earlier.absorb later agreement).parameters
      later.parameters = (earlier.absorb later agreement).parameters := by
    rw [parameters_absorb, absorbParameters_absorbParameters]
  have sameStatic : ((earlier.absorb later agreement).isStatic || later.isStatic) =
      (earlier.absorb later agreement).isStatic := by
    rw [isStatic_absorb, Bool.or_assoc, Bool.or_self]
  have listed : later.exceptions ⊆ (earlier.absorb later agreement).exceptions :=
    fun exception member => mem_exceptions_absorb.mpr (Or.inr member)
  generalize earlier.absorb later agreement = absorbed at *
  rw [absorb, decide_eq_false keeps, sameDescription, sameParameters, sameStatic]
  exact foldl_addException_of_subset listed

/-- The result agrees with the declaration it has absorbed, and absorbing that again changes
nothing. -/
theorem absorb_absorb (agree : earlier.agreement? later = some agreement) :
    ∃ settled, (earlier.absorb later agreement).agreement? later = some settled ∧
      (earlier.absorb later agreement).absorb later settled =
        earlier.absorb later agreement := by
  rw [agreement?, signature_absorb agree]
  split
  · exact ⟨.exact, later.signature.agreement?_self, absorb_of_absorbed (by decide)⟩
  · rename_i keeps
    exact ⟨agreement, agree, absorb_of_absorbed keeps⟩

end Method

end ApiReference
