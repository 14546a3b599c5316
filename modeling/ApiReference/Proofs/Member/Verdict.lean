import ApiReference.Proofs.Member.Agreement

/-!
# What an agreement tells

Two signatures are compared slot by slot, and their agreement is a summary over all slots.  Whether
there is one depends on every slot; each of its flags tells whether some slot needs a wildcard on
that side (`slotsAgreement?_eq`).  A wildcard counts only where the types differ, so that the
agreement is exact if and only if all types are the same.

The summary is stated by the texts of tokens alone.  It determines the agreement, and seen from the
other side it is the same with its flags exchanged (`Signature.agreement?_summarizes`).
-/

set_option autoImplicit false

namespace ApiReference

/-! ## One slot -/

/-- The first token of the type is the wildcard. -/
def Token.StandsForAny (type : List Token) : Prop :=
  ∃ first rest, type = first :: rest ∧ first.text = "any"

theorem Token.startsWithWildcard_iff {type : List Token} :
    startsWithWildcard type = true ↔ StandsForAny type := by
  cases type with
  | nil => simp [startsWithWildcard, StandsForAny]
  | cons first rest =>
    have isAny : isWildcard first = true ↔ first.text = "any" := decide_eq_true_iff
    simp [startsWithWildcard, StandsForAny, isAny]

instance (type : List Token) : Decidable (Token.StandsForAny type) :=
  decidable_of_iff _ Token.startsWithWildcard_iff

/-- The types that two signatures have in the same place. -/
structure Slot where
  earlier : List Token
  later : List Token
deriving DecidableEq, Repr

namespace Slot

open Token

/-- The types have the same texts. -/
def IsSame (slot : Slot) : Prop :=
  slot.earlier.map Token.text = slot.later.map Token.text

/-- The types have the same texts, or one of them stands for any. -/
def Agrees (slot : Slot) : Prop :=
  slot.IsSame ∨ StandsForAny slot.earlier ∨ StandsForAny slot.later

/-- The types differ, and the earlier one stands for any. -/
def EarlierWildcard (slot : Slot) : Prop :=
  ¬ slot.IsSame ∧ StandsForAny slot.earlier

/-- The types differ, and the later one stands for any. -/
def LaterWildcard (slot : Slot) : Prop :=
  ¬ slot.IsSame ∧ StandsForAny slot.later

instance (slot : Slot) : Decidable slot.IsSame :=
  inferInstanceAs (Decidable (_ = _))

instance (slot : Slot) : Decidable slot.Agrees :=
  inferInstanceAs (Decidable (_ ∨ _ ∨ _))

instance (slot : Slot) : Decidable slot.EarlierWildcard :=
  inferInstanceAs (Decidable (¬ _ ∧ _))

instance (slot : Slot) : Decidable slot.LaterWildcard :=
  inferInstanceAs (Decidable (¬ _ ∧ _))

theorem slotAgreement?_eq (slot : Slot) :
    slotAgreement? slot.earlier slot.later =
      if slot.Agrees then some ⟨slot.EarlierWildcard, slot.LaterWildcard⟩ else none := by
  have same_iff : sameTexts slot.earlier slot.later = true ↔ slot.IsSame := sameTexts_iff
  by_cases same : slot.IsSame
  · have agrees : slot.Agrees := Or.inl same
    rw [slotAgreement?, if_pos (same_iff.mpr same), if_pos agrees]
    simp [EarlierWildcard, LaterWildcard, same, Agreement.exact]
  · rw [slotAgreement?, if_neg (mt same_iff.mp same)]
    simp only [Bool.or_eq_true, Agrees, EarlierWildcard, LaterWildcard,
      same, not_false_eq_true, true_and, false_or, ← startsWithWildcard_iff, Bool.decide_eq_true]

/-- The types of a slot that agrees are the same unless one side needs a wildcard. -/
theorem isSame_iff_of_agrees {slot : Slot} (agrees : slot.Agrees) :
    slot.IsSame ↔ ¬ slot.EarlierWildcard ∧ ¬ slot.LaterWildcard := by
  constructor
  · intro same
    exact ⟨fun wildcard => wildcard.1 same, fun wildcard => wildcard.1 same⟩
  · rintro ⟨noEarlier, noLater⟩
    by_contra different
    rcases agrees with same | any | any
    · exact different same
    · exact noEarlier ⟨different, any⟩
    · exact noLater ⟨different, any⟩

end Slot

/-! ## All slots -/

/-- The slots of two lists of types. -/
def slotsOf (earlier later : List (List Token)) : List Slot :=
  List.zipWith Slot.mk earlier later

/-- Equally many types agree if they do in every slot, and the agreement tells of some slot that
needs a wildcard. -/
theorem slotsAgreement?_eq (earlier later : List (List Token)) :
    slotsAgreement? earlier later =
      if earlier.length = later.length ∧ ∀ slot ∈ slotsOf earlier later, slot.Agrees then
        some ⟨∃ slot ∈ slotsOf earlier later, slot.EarlierWildcard,
          ∃ slot ∈ slotsOf earlier later, slot.LaterWildcard⟩
      else none := by
  induction earlier generalizing later with
  | nil => cases later <;> simp [slotsAgreement?, slotsOf, Agreement.exact]
  | cons first rest ih =>
    cases later with
    | nil => simp [slotsAgreement?]
    | cons first' rest' =>
      have slots : slotsOf (first :: rest) (first' :: rest') =
          ⟨first, first'⟩ :: slotsOf rest rest' := rfl
      rw [slotsAgreement?_cons, ih, Slot.slotAgreement?_eq ⟨first, first'⟩, slots]
      simp only [List.length_cons, Nat.add_right_cancel_iff, List.forall_mem_cons,
        List.exists_mem_cons_iff, Bool.decide_or]
      by_cases sameLength : rest.length = rest'.length
      · by_cases here : (⟨first, first'⟩ : Slot).Agrees
        · by_cases there : ∀ slot ∈ slotsOf rest rest', slot.Agrees
          · rw [if_pos here, if_pos ⟨sameLength, there⟩, if_pos ⟨sameLength, here, there⟩]
            rfl
          · simp [here, there]
        · simp [here]
      · simp [sameLength]

/-! ## Signatures -/

/-- The slots of two signatures, that of the return types first. -/
def Signature.slotsWith (earlier later : Signature) : List Slot :=
  slotsOf earlier.slots later.slots

/-- The signatures have the same name and as many parameters, and agree in every slot. -/
structure Signature.AgreesBySlot (earlier later : Signature) : Prop where
  sameName : earlier.name = later.name
  sameCount : earlier.parameterTypes.length = later.parameterTypes.length
  slots : ∀ slot ∈ earlier.slotsWith later, slot.Agrees

/-- What the flags of an agreement of two signatures tell of their slots. -/
structure Agreement.Summarizes (agreement : Agreement) (earlier later : Signature) : Prop
    extends earlier.AgreesBySlot later where
  earlierWildcard_iff : agreement.earlierWildcard = true ↔
    ∃ slot ∈ earlier.slotsWith later, slot.EarlierWildcard
  laterWildcard_iff : agreement.laterWildcard = true ↔
    ∃ slot ∈ earlier.slotsWith later, slot.LaterWildcard
  isExact_iff : agreement.isExact = true ↔ ∀ slot ∈ earlier.slotsWith later, slot.IsSame

namespace Signature

variable {earlier later : Signature} {agreement : Agreement}

theorem agreesBySlot_iff :
    earlier.AgreesBySlot later ↔ earlier.name = later.name ∧
      earlier.slots.length = later.slots.length ∧
        ∀ slot ∈ earlier.slotsWith later, slot.Agrees := by
  have sameCount : earlier.slots.length = later.slots.length ↔
      earlier.parameterTypes.length = later.parameterTypes.length := Nat.succ_inj
  rw [sameCount]
  exact ⟨fun ⟨name, count, slots⟩ => ⟨name, count, slots⟩,
    fun ⟨name, count, slots⟩ => ⟨name, count, slots⟩⟩

instance (earlier later : Signature) : Decidable (earlier.AgreesBySlot later) :=
  decidable_of_iff' _ agreesBySlot_iff

theorem agreement?_eq (earlier later : Signature) :
    earlier.agreement? later =
      if earlier.AgreesBySlot later then
        some ⟨∃ slot ∈ earlier.slotsWith later, slot.EarlierWildcard,
          ∃ slot ∈ earlier.slotsWith later, slot.LaterWildcard⟩
      else none := by
  rw [agreement?, slotsAgreement?_eq]
  by_cases sameName : earlier.name = later.name
  · rw [if_pos sameName]
    exact if_congr (by rw [agreesBySlot_iff, and_iff_right sameName]; rfl) rfl rfl
  · rw [if_neg sameName, if_neg fun agrees => sameName agrees.sameName]

/-- No slot needs a wildcard exactly if the types are the same in every one. -/
theorem AgreesBySlot.forall_isSame_iff (agrees : earlier.AgreesBySlot later) :
    (∀ slot ∈ earlier.slotsWith later, slot.IsSame) ↔
      (¬ ∃ slot ∈ earlier.slotsWith later, slot.EarlierWildcard) ∧
        ¬ ∃ slot ∈ earlier.slotsWith later, slot.LaterWildcard := by
  constructor
  · intro same
    constructor
    · rintro ⟨slot, member, different, _⟩
      exact different (same slot member)
    · rintro ⟨slot, member, different, _⟩
      exact different (same slot member)
  · rintro ⟨noEarlier, noLater⟩ slot member
    refine (Slot.isSame_iff_of_agrees (agrees.slots slot member)).mpr ⟨?_, ?_⟩
    · exact fun wildcard => noEarlier ⟨slot, member, wildcard⟩
    · exact fun wildcard => noLater ⟨slot, member, wildcard⟩

theorem agreement?_eq_some_iff_summarizes :
    earlier.agreement? later = some agreement ↔ agreement.Summarizes earlier later := by
  rw [agreement?_eq]
  constructor
  · intro agree
    obtain ⟨agrees, same⟩ := Option.ite_none_right_eq_some.mp agree
    obtain rfl := Option.some.inj same
    refine ⟨agrees, decide_eq_true_iff, decide_eq_true_iff, ?_⟩
    rw [agrees.forall_isSame_iff]
    simp only [Agreement.isExact, Bool.and_eq_true, Bool.not_eq_true', decide_eq_false_iff_not]
  · intro summarizes
    rw [if_pos summarizes.toAgreesBySlot]
    simp only [← summarizes.earlierWildcard_iff, ← summarizes.laterWildcard_iff,
      Bool.decide_eq_true]

/-- Signatures agree exactly if their names and counts of parameters do and if in every slot the
types have the same texts or one of them stands for any.  The agreement tells on which sides some
slot with different types has a wildcard, and no other agreement does; it is exact if the types are
the same in every slot.  From the other side there is the same agreement with its flags
exchanged. -/
theorem agreement?_summarizes (earlier later : Signature) :
    ((∃ agreement, earlier.agreement? later = some agreement) ↔ earlier.AgreesBySlot later) ∧
      (∀ agreement,
        earlier.agreement? later = some agreement ↔ agreement.Summarizes earlier later) ∧
        later.agreement? earlier = (earlier.agreement? later).map Agreement.swap := by
  refine ⟨?_, fun agreement => agreement?_eq_some_iff_summarizes, agreement?_swap earlier later⟩
  constructor
  · rintro ⟨agreement, agree⟩
    exact (agreement?_eq_some_iff_summarizes.mp agree).toAgreesBySlot
  · intro agrees
    exact ⟨_, (agreement?_eq earlier later).trans (if_pos agrees)⟩

/-- The wildcards of the return types do not count, since these are the same. -/
example :
    let any := [Token.ofWord "any"]
    (⟨"Find", any, [[.ofWord "int"], any]⟩ : Signature).agreement?
      ⟨"Find", any, [any, [.ofWord "String"]]⟩ = some ⟨true, true⟩ := by
  decide

end Signature

end ApiReference
