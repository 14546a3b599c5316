import ApiReference.Member.Method
import Mathlib.Data.List.Forall2

/-!
# Agreement of signatures

Signatures agree slot by slot, and the types of a slot agree if one covers the other: their texts
are equal, or the covering type is the wildcard.  Agreement is therefore symmetric
(`agreement?_swap`), but it is not transitive, because a wildcard agrees with types that do not
agree with each other.

What takes the place of transitivity is covering.  A signature that covers another agrees with all
that the other agrees with (`Signature.Covers.agrees`), and where only one side needed wildcards,
that side covers the other one (`covers_of_laterWildcard`, `covers_of_earlierWildcard`).
-/

set_option autoImplicit false

namespace ApiReference

/-! ## One slot -/

namespace Token

/-- The texts are equal, or the first type stands for any. -/
def Covers (general special : List Token) : Prop :=
  sameTexts general special = true ∨ startsWithWildcard general = true

variable {left right other : List Token}

theorem sameTexts_iff :
    sameTexts left right = true ↔ left.map Token.text = right.map Token.text :=
  decide_eq_true_iff

/-- Whether a type stands for any depends on its texts alone. -/
theorem startsWithWildcard_of_sameTexts (same : sameTexts left right = true) :
    startsWithWildcard left = startsWithWildcard right := by
  rw [sameTexts_iff] at same
  cases left with
  | nil =>
    rw [List.map_nil, eq_comm, List.map_eq_nil_iff] at same
    rw [same]
  | cons first rest =>
    cases right with
    | nil => cases same
    | cons first' rest' =>
      obtain ⟨sameFirst, -⟩ := List.cons.inj same
      simp only [startsWithWildcard, List.head?_cons, Option.any_some, isWildcard, sameFirst]

theorem Covers.refl (type : List Token) : Covers type type :=
  Or.inl (sameTexts_iff.mpr rfl)

/-- What covers a type agrees with all that the type agrees with. -/
theorem Covers.agrees {general special : List Token} (covers : Covers general special)
    (agrees : Covers special other ∨ Covers other special) :
    Covers general other ∨ Covers other general := by
  rcases covers with same | wildcard
  · have sameWildcard := startsWithWildcard_of_sameTexts same
    rw [sameTexts_iff] at same
    unfold Covers at agrees ⊢
    rwa [sameWildcard, sameTexts_iff, sameTexts_iff, same, ← sameTexts_iff, ← sameTexts_iff]
  · exact Or.inl (Or.inr wildcard)

end Token

section Slot

open Token

variable {earlier later : List Token} {agreement : Agreement}

theorem slotAgreement?_ne_none_iff :
    slotAgreement? earlier later ≠ none ↔ Covers earlier later ∨ Covers later earlier := by
  rw [slotAgreement?, Covers, Covers, sameTexts_comm later earlier]
  split
  · rename_i same
    simp [same]
  · rename_i different
    split
    · rename_i wildcard
      rw [Bool.or_eq_true] at wildcard
      simp [different, wildcard]
    · rename_i noWildcard
      rw [Bool.or_eq_true] at noWildcard
      simp [different, noWildcard]

theorem slotAgreement?_swap (earlier later : List Token) :
    slotAgreement? later earlier = (slotAgreement? earlier later).map Agreement.swap := by
  rw [slotAgreement?, slotAgreement?, sameTexts_comm later earlier, Bool.or_comm]
  split
  · rfl
  · split <;> rfl

/-- If the later type is not to blame, the earlier one covers it. -/
theorem covers_of_slotAgreement? (agree : slotAgreement? earlier later = some agreement)
    (concrete : agreement.laterWildcard = false) : Covers earlier later := by
  unfold slotAgreement? at agree
  split at agree
  · rename_i same
    exact Or.inl same
  · split at agree
    · rename_i wildcard
      obtain rfl := Option.some.inj agree
      dsimp only at concrete
      rw [concrete, Bool.or_false] at wildcard
      exact Or.inr wildcard
    · cases agree

theorem slotAgreement?_self (type : List Token) : slotAgreement? type type = some .exact :=
  if_pos (sameTexts_iff.mpr rfl)

end Slot

/-! ## All slots -/

namespace Agreement

/-- The later types are kept exactly if wildcards were needed on the earlier side alone. -/
theorem canonicalSide_eq_later_iff {agreement : Agreement} :
    agreement.canonicalSide = .later ↔
      agreement.earlierWildcard = true ∧ agreement.laterWildcard = false := by
  rcases agreement with ⟨_ | _, _ | _⟩ <;> decide

end Agreement

section Slots

open Token

theorem slotsAgreement?_cons (earlier later : List Token) (earlierRest laterRest : List (List Token)) :
    slotsAgreement? (earlier :: earlierRest) (later :: laterRest) =
      (slotAgreement? earlier later).bind fun first =>
        (slotsAgreement? earlierRest laterRest).map first.union := by
  rw [slotsAgreement?]
  cases slotAgreement? earlier later with
  | none => rfl
  | some first => cases slotsAgreement? earlierRest laterRest <;> rfl

theorem slotsAgreement?_swap (earlier later : List (List Token)) :
    slotsAgreement? later earlier = (slotsAgreement? earlier later).map Agreement.swap := by
  induction earlier generalizing later with
  | nil => cases later <;> rfl
  | cons first rest ih =>
    cases later with
    | nil => rfl
    | cons first' rest' =>
      rw [slotsAgreement?_cons, slotsAgreement?_cons, slotAgreement?_swap first first', ih]
      cases slotAgreement? first first' with
      | none => rfl
      | some agreement =>
        cases slotsAgreement? rest rest' with
        | none => rfl
        | some others => rfl

theorem slotsAgreement?_ne_none_iff {earlier later : List (List Token)} :
    slotsAgreement? earlier later ≠ none ↔
      List.Forall₂ (fun left right => Covers left right ∨ Covers right left) earlier later := by
  induction earlier generalizing later with
  | nil => cases later <;> simp [slotsAgreement?]
  | cons first rest ih =>
    cases later with
    | nil => simp [slotsAgreement?]
    | cons first' rest' =>
      rw [List.forall₂_cons, ← slotAgreement?_ne_none_iff, ← ih, slotsAgreement?_cons]
      cases slotAgreement? first first' with
      | none => simp
      | some agreement => simp

/-- If no later type is to blame, every earlier one covers its counterpart. -/
theorem covers_of_slotsAgreement? {earlier later : List (List Token)} {agreement : Agreement}
    (agree : slotsAgreement? earlier later = some agreement)
    (concrete : agreement.laterWildcard = false) : List.Forall₂ Covers earlier later := by
  induction earlier generalizing later agreement with
  | nil =>
    cases later with
    | nil => exact List.Forall₂.nil
    | cons first' rest' => cases agree
  | cons first rest ih =>
    cases later with
    | nil => cases agree
    | cons first' rest' =>
      rw [slotsAgreement?_cons, Option.bind_eq_some_iff] at agree
      obtain ⟨slot, agreeFirst, agreeRest⟩ := agree
      obtain ⟨others, agreeOthers, rfl⟩ := Option.map_eq_some_iff.mp agreeRest
      obtain ⟨concreteFirst, concreteRest⟩ := Bool.or_eq_false_iff.mp concrete
      exact List.Forall₂.cons (covers_of_slotAgreement? agreeFirst concreteFirst)
        (ih agreeOthers concreteRest)

theorem slotsAgreement?_self (types : List (List Token)) :
    slotsAgreement? types types = some .exact := by
  induction types with
  | nil => rfl
  | cons first rest ih => rw [slotsAgreement?_cons, slotAgreement?_self, ih]; rfl

end Slots

/-! ## Signatures -/

namespace Signature

variable {left right other : Signature} {agreement : Agreement}

/-- The signatures declare the same overload. -/
def Agrees (left right : Signature) : Prop :=
  left.agreement? right ≠ none

/-- The names are equal, and every type of the first signature covers that of the second. -/
def Covers (general special : Signature) : Prop :=
  general.name = special.name ∧ List.Forall₂ Token.Covers general.slots special.slots

theorem agreement?_swap (left right : Signature) :
    right.agreement? left = (left.agreement? right).map Agreement.swap := by
  rw [agreement?, agreement?, slotsAgreement?_swap left.slots right.slots]
  by_cases same : left.name = right.name
  · rw [if_pos same, if_pos same.symm]
  · rw [if_neg same, if_neg (Ne.symm same)]
    rfl

theorem agreement?_self (signature : Signature) : signature.agreement? signature = some .exact := by
  rw [agreement?, if_pos rfl, slotsAgreement?_self]

theorem agreement?_eq_some_iff :
    left.agreement? right = some agreement ↔
      left.name = right.name ∧ slotsAgreement? left.slots right.slots = some agreement := by
  rw [agreement?]
  split
  · rename_i same
    simp [same]
  · rename_i different
    simp [different]

theorem agrees_iff :
    left.Agrees right ↔ left.name = right.name ∧
      List.Forall₂ (fun left right => Token.Covers left right ∨ Token.Covers right left)
        left.slots right.slots := by
  rw [Agrees, ← slotsAgreement?_ne_none_iff, agreement?]
  split
  · rename_i same
    simp [same]
  · rename_i different
    simp [different]

theorem not_agrees_iff : ¬ left.Agrees right ↔ left.agreement? right = none :=
  not_not

theorem agrees_of_agreement? (agree : left.agreement? right = some agreement) :
    left.Agrees right := by
  rw [Agrees, agree]
  exact Option.some_ne_none agreement

theorem Agrees.symm (agrees : left.Agrees right) : right.Agrees left := by
  rw [Agrees, agreement?_swap left right, Ne, Option.map_eq_none_iff]
  exact agrees

theorem agrees_comm : left.Agrees right ↔ right.Agrees left :=
  ⟨Agrees.symm, Agrees.symm⟩

theorem Covers.refl (signature : Signature) : signature.Covers signature :=
  ⟨rfl, List.forall₂_same.mpr fun type _ => Token.Covers.refl type⟩

/-- A signature agrees with all that a signature it covers agrees with. -/
theorem Covers.agrees (covers : left.Covers right) (agrees : right.Agrees other) :
    left.Agrees other := by
  rw [agrees_iff] at agrees ⊢
  obtain ⟨sameName, coversSlots⟩ := covers
  obtain ⟨sameName', agreeSlots⟩ := agrees
  refine ⟨sameName.trans sameName', ?_⟩
  generalize left.slots = general at coversSlots ⊢
  generalize right.slots = special at coversSlots agreeSlots
  generalize other.slots = further at agreeSlots ⊢
  induction coversSlots generalizing further with
  | nil => exact agreeSlots
  | cons coversFirst _ ih =>
    cases agreeSlots with
    | cons agreesFirst agreesRest =>
      exact List.Forall₂.cons (coversFirst.agrees agreesFirst) (ih _ agreesRest)

/-- Where no wildcard of the later signature was needed, the earlier one covers it. -/
theorem covers_of_laterWildcard (agree : left.agreement? right = some agreement)
    (concrete : agreement.laterWildcard = false) : left.Covers right := by
  obtain ⟨sameName, agreeSlots⟩ := agreement?_eq_some_iff.mp agree
  exact ⟨sameName, covers_of_slotsAgreement? agreeSlots concrete⟩

/-- Where no wildcard of the earlier signature was needed, the later one covers it. -/
theorem covers_of_earlierWildcard (agree : left.agreement? right = some agreement)
    (concrete : agreement.earlierWildcard = false) : right.Covers left := by
  have swapped : right.agreement? left = some agreement.swap := by
    rw [agreement?_swap, agree]
    rfl
  exact covers_of_laterWildcard swapped concrete

end Signature

end ApiReference
