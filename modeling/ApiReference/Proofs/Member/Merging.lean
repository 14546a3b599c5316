import ApiReference.Proofs.Member.Absorption
import ApiReference.Proofs.Member.Exceptions
import ApiReference.Proofs.Member.Verdict

/-!
# Merging two declarations

A method that has absorbed another declaration of its overload still agrees with both of them.  Its
types are those of one of the two, and where they stand for any, they did so before: merging never
generalizes.  What was written stays, or something else that is written takes its place, and the
exceptions of the other declaration are put behind those that were listed, each once
(`Method.merges_absorb`).

To absorb the same declaration once more changes nothing, although the two are compared anew and may
then agree in another way.
-/

set_option autoImplicit false

namespace ApiReference

/-- A type that is covered stands for any only if the covering one does. -/
theorem Token.Covers.standsForAny {general special : List Token} (covers : Covers general special)
    (any : StandsForAny special) : StandsForAny general := by
  rcases covers with same | wildcard
  · rw [← startsWithWildcard_iff] at any ⊢
    rwa [startsWithWildcard_of_sameTexts same]
  · exact startsWithWildcard_iff.mp wildcard

/-- Parameters are related to what they become if each one is that absorbs another. -/
theorem forall₂_absorbParameters {related : Parameter → Parameter → Prop} {adoptTypes : Bool}
    (refl : ∀ parameter, related parameter parameter)
    (absorbs : ∀ earlier later, related (earlier.absorb adoptTypes later) earlier)
    (earlier later : List Parameter) :
    List.Forall₂ related (absorbParameters adoptTypes earlier later) earlier := by
  induction earlier generalizing later with
  | nil => exact .nil
  | cons first rest ih =>
    cases later with
    | nil => exact List.forall₂_same.mpr fun parameter _ => refl parameter
    | cons first' rest' => exact .cons (absorbs first first') (ih rest')

namespace Method

/-- Exceptions that are recorded come behind those that were listed, each once. -/
theorem exceptions_foldl_addException (exceptions : List RaisedException) (method : Method) :
    ∃ added, (exceptions.foldl addException method).exceptions = method.exceptions ++ added ∧
      added.Sublist exceptions ∧ added.Nodup ∧
        ∀ exception,
          exception ∈ added ↔ exception ∈ exceptions ∧ exception ∉ method.exceptions := by
  induction exceptions generalizing method with
  | nil => exact ⟨[], (List.append_nil _).symm, .slnil, List.nodup_nil, by simp⟩
  | cons first rest ih =>
    obtain ⟨added, result, inOrder, distinct, members⟩ := ih (method.addException first)
    rw [exceptions_addException] at result members
    -- only if the first one is new does it count as listed for those behind it
    by_cases known : first ∈ method.exceptions
    · rw [if_pos known] at result members
      refine ⟨added, result, inOrder.cons first, distinct, fun exception => ?_⟩
      rw [members, List.mem_cons]
      constructor
      · exact fun ⟨inRest, fresh⟩ => ⟨Or.inr inRest, fresh⟩
      · rintro ⟨rfl | inRest, fresh⟩
        · exact absurd known fresh
        · exact ⟨inRest, fresh⟩
    · rw [if_neg known] at result members
      simp only [List.mem_append, List.mem_singleton, not_or] at members
      have firstOnce : first ∉ added := fun again => ((members first).mp again).2.2 rfl
      refine ⟨first :: added, by rw [List.foldl_cons, result, List.append_assoc]; rfl,
        inOrder.cons_cons first, List.nodup_cons.mpr ⟨firstOnce, distinct⟩, fun exception => ?_⟩
      rw [List.mem_cons, List.mem_cons, members]
      by_cases isFirst : exception = first
      · simp [isFirst, known]
      · simp [isFirst]

/-- What has become of a method that has absorbed a later declaration of its overload. -/
structure Merges (earlier later : Method) (agreement : Agreement) (merged : Method) : Prop where
  agrees_earlier : merged.signature.Agrees earlier.signature
  agrees_later : merged.signature.Agrees later.signature
  signature : merged.signature =
    match agreement.canonicalSide with
    | .earlier => earlier.signature
    | .later => later.signature
  standsForAny : List.Forall₂
    (fun type earlierType => Token.StandsForAny type → Token.StandsForAny earlierType)
    merged.signature.slots earlier.signature.slots
  description : earlier.description ≠ "" → merged.description ≠ ""
  isStatic : earlier.isStatic = true → merged.isStatic = true
  parameters : List.Forall₂
    (fun parameter earlierParameter => (earlierParameter.name ≠ "" → parameter.name ≠ "") ∧
      (earlierParameter.description ≠ "" →
        parameter.description = earlierParameter.description))
    merged.parameters earlier.parameters
  exceptions : ∃ added, merged.exceptions = earlier.exceptions ++ added ∧
    added.Sublist later.exceptions ∧ added.Nodup ∧
      ∀ exception, exception ∈ added ↔
        exception ∈ later.exceptions ∧ exception ∉ earlier.exceptions
  again : ∃ settled, merged.agreement? later = some settled ∧ merged.absorb later settled = merged

/-- A method that absorbs another declaration of its overload agrees with both.  It gets the types
of the side that is kept, none of which stands for any unless the method's own did, loses nothing
that was written, and gets the exceptions it did not list.  Absorbing the declaration again leaves
it as it is. -/
theorem merges_absorb {earlier later : Method} {agreement : Agreement}
    (agree : earlier.agreement? later = some agreement) :
    Merges earlier later agreement (earlier.absorb later agreement) := by
  have covers := covers_absorb agree
  obtain ⟨settled, agreeAgain, unchanged⟩ := absorb_absorb agree
  constructor
  case agrees_earlier =>
    have self := (earlier.absorb later agreement).signature.agreement?_self
    exact (covers.agrees (Signature.agrees_of_agreement? self)).symm
  case agrees_later => exact Signature.agrees_of_agreement? agreeAgain
  case signature =>
    rw [signature_absorb agree]
    cases agreement.canonicalSide <;> rfl
  case standsForAny =>
    exact covers.2.flip.imp fun _ _ coversType => Token.Covers.standsForAny coversType
  case description =>
    intro written
    rw [description_absorb]
    split
    · exact written
    · assumption
  case isStatic =>
    intro isStatic
    rw [isStatic_absorb, isStatic, Bool.true_or]
  case parameters =>
    rw [parameters_absorb]
    refine forall₂_absorbParameters (fun parameter => ⟨id, fun _ => rfl⟩) ?_ _ _
    intro earlier later
    constructor
    · intro named
      dsimp only [Parameter.absorb]
      split
      · exact named
      · assumption
    · exact fun described => if_neg described
  case exceptions => exact exceptions_foldl_addException later.exceptions _
  case again => exact ⟨settled, agreeAgain, unchanged⟩

/-- The wildcards of the earlier declaration make way for types, and one of three exceptions that
come with them is listed already, another is repeated. -/
theorem merges_absorb_find :
    let any := [Token.ofWord "any"]
    let gone : RaisedException := ⟨"Gone", "The cog is gone."⟩
    let full : RaisedException := ⟨"Full", "The space is full."⟩
    let earlier : Method :=
      ⟨"Find", "Finds a cog.", [⟨"key", "", any⟩, ⟨"depth", "How deep.", [.ofWord "int"]⟩],
        any, true, [gone]⟩
    let later : Method :=
      ⟨"Find", "", [⟨"", "What to find.", [.ofWord "String"]⟩, ⟨"level", "", [.ofWord "int"]⟩],
        [.ofWord "Cog"], false, [full, gone, full]⟩
    let merged : Method :=
      ⟨"Find", "Finds a cog.",
        [⟨"key", "What to find.", [.ofWord "String"]⟩, ⟨"level", "How deep.", [.ofWord "int"]⟩],
        [.ofWord "Cog"], true, [gone, full]⟩
    earlier.agreement? later = some ⟨true, false⟩ ∧ earlier.absorb later ⟨true, false⟩ = merged ∧
      Merges earlier later ⟨true, false⟩ merged ∧ merged.agreement? later = some .exact := by
  intro any gone full earlier later merged
  have agree : earlier.agreement? later = some ⟨true, false⟩ := by decide
  have absorbed : earlier.absorb later ⟨true, false⟩ = merged := by decide
  have merges := merges_absorb agree
  rw [absorbed] at merges
  exact ⟨agree, absorbed, merges, by decide⟩

end Method

end ApiReference
