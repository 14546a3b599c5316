import ApiReference.Proofs.Library.Comments
import ApiReference.Proofs.Member.Exceptions
import Mathlib.Logic.Relation

/-!
# The order of overloads

A page starts without methods and gets them from declarations and from comments, in either case by
one of three steps: a method absorbs what is declared, or a method is put behind the last one of its
name, or at the end if it is the first (`Method.Joins`).  None of them moves a method that is there,
and methods of one name stand together afterwards if they did before.

Substituting aliases adds all methods anew.  Of those that declare the same overload then, only the
first is left and has absorbed the others.  The methods that are left are known beforehand
(`Method.survivors`), and those of one name stand in the order they had (`methodsNamed_normalize`).
Methods of different names may well change places, since the methods of one name are brought
together.
-/

set_option autoImplicit false

namespace ApiReference

namespace Method

variable {methods before after : List Method} {method : Method}

/-! ## What becomes of a method -/

/-- A method absorbs a declaration of its overload. -/
def AbsorbsTo (earlier absorbed : Method) : Prop :=
  ∃ later agreement, earlier.agreement? later = some agreement ∧
    absorbed = earlier.absorb later agreement

/-- A method absorbs any number of declarations, one after the other. -/
def Becomes : Method → Method → Prop :=
  Relation.ReflTransGen AbsorbsTo

namespace Becomes

variable {left middle right : Method}

theorem refl (method : Method) : method.Becomes method :=
  Relation.ReflTransGen.refl

theorem trans (first : left.Becomes middle) (second : middle.Becomes right) :
    left.Becomes right :=
  Relation.ReflTransGen.trans first second

theorem absorb {later : Method} {agreement : Agreement}
    (agree : left.agreement? later = some agreement) : left.Becomes (left.absorb later agreement) :=
  .single ⟨later, agreement, agree, rfl⟩

theorem name_eq (becomes : left.Becomes right) : right.name = left.name := by
  induction becomes with
  | refl => rfl
  | tail _ step ih =>
    obtain ⟨later, agreement, -, rfl⟩ := step
    rw [name_absorb, ih]

end Becomes

theorem forall₂_becomes_refl (methods : List Method) : List.Forall₂ Becomes methods methods :=
  List.forall₂_same.mpr fun method _ => .refl method

theorem forall₂_becomes_append {others othersAfter : List Method}
    (become : List.Forall₂ Becomes before after)
    (othersBecome : List.Forall₂ Becomes others othersAfter) :
    List.Forall₂ Becomes (before ++ others) (after ++ othersAfter) :=
  List.rel_append become othersBecome

theorem forall₂_becomes_filter (become : List.Forall₂ Becomes before after) (name : String) :
    List.Forall₂ Becomes (before.filter (·.name = name)) (after.filter (·.name = name)) := by
  refine List.rel_filter (fun left right becomes => ?_) become
  dsimp only
  rw [becomes.name_eq]

/-- Where one method absorbs a declaration, the others stay. -/
theorem forall₂_becomes_absorb (front behind : List Method) {earlier later : Method}
    {agreement : Agreement} (agree : earlier.agreement? later = some agreement) :
    List.Forall₂ Becomes (front ++ earlier :: behind)
      (front ++ earlier.absorb later agreement :: behind) :=
  forall₂_becomes_append (forall₂_becomes_refl front)
    (.cons (.absorb agree) (forall₂_becomes_refl behind))

/-- The methods of a list stand in another in the same order, each with what it has absorbed. -/
def StayInOrder (before after : List Method) : Prop :=
  ∃ kept, List.Forall₂ Becomes before kept ∧ kept.Sublist after

theorem StayInOrder.refl (methods : List Method) : StayInOrder methods methods :=
  ⟨methods, forall₂_becomes_refl methods, .refl _⟩

/-! ## One declaration -/

/-- What one declaration does to the methods of a page. -/
inductive Joins : List Method → List Method → Prop where
  | absorbed (front behind : List Method) {earlier later : Method} {agreement : Agreement}
      (agree : earlier.agreement? later = some agreement) :
      Joins (front ++ earlier :: behind) (front ++ earlier.absorb later agreement :: behind)
  | behindNamesake (front behind : List Method) {namesake method : Method}
      (sameName : namesake.name = method.name)
      (last : ∀ other ∈ behind, other.name ≠ method.name) :
      Joins (front ++ namesake :: behind) (front ++ namesake :: method :: behind)
  | atEnd (methods : List Method) {method : Method}
      (first : ∀ other ∈ methods, other.name ≠ method.name) : Joins methods (methods ++ [method])

theorem joins_absorbAt {later : Method} {found : MatchingMethod}
    (matched : matching? later.signature methods = some found) :
    Joins methods (absorbAt found later methods) := by
  obtain ⟨front, behind, rfl, position, -, agree⟩ := exists_of_matching? matched
  rw [absorbAt_append_cons later position]
  exact .absorbed front behind agree

theorem joins_insertGrouped (methods : List Method) (method : Method) :
    Joins methods (insertGrouped methods method) := by
  rcases insertGrouped_cases methods method with
    ⟨front, namesake, behind, rfl, inserted, sameName, last⟩ | ⟨first, inserted⟩
  · exact inserted ▸ .behindNamesake front behind sameName last
  · exact inserted ▸ .atEnd methods first

theorem joins_addTo (methods : List Method) (method : Method) :
    Joins methods (addTo methods method) := by
  rw [addTo]
  cases matched : matching? method.signature methods with
  | some found => exact joins_absorbAt matched
  | none => exact joins_insertGrouped methods method

theorem Joins.stayInOrder (joins : Joins before after) : StayInOrder before after := by
  cases joins with
  | absorbed front behind agree => exact ⟨_, forall₂_becomes_absorb front behind agree, .refl _⟩
  | behindNamesake front behind =>
    refine ⟨_, forall₂_becomes_refl _, ?_⟩
    exact ((List.sublist_cons_self _ behind).cons_cons _).append_left front
  | atEnd => exact ⟨before, forall₂_becomes_refl before, List.sublist_append_left _ _⟩

theorem Joins.grouped (joins : Joins before after) (grouped : Grouped (before.map name)) :
    Grouped (after.map name) := by
  cases joins with
  | absorbed => simpa using grouped
  | behindNamesake front behind sameName =>
    rw [List.map_append, List.map_cons] at grouped
    rw [List.map_append, List.map_cons, List.map_cons, ← sameName]
    exact grouped.double
  | atEnd methods first =>
    rw [List.map_append]
    refine grouped.concat fun member => ?_
    obtain ⟨other, isOther, sameName⟩ := List.mem_map.mp member
    exact first other isOther sameName

theorem grouped_deduplicate (methods : List Method) : Grouped ((deduplicate methods).map name) :=
  List.foldlRecOn methods addTo (motive := fun present => Grouped (present.map name)) grouped_nil
    fun present grouped method _ => (joins_addTo present method).grouped grouped

/-! ## All declarations anew -/

/-- The methods that are put in if those of a list are added to others one after the other.  The
rest is absorbed. -/
def survivors (present : List Method) : List Method → List Method
  | [] => []
  | method :: later =>
    (if matching? method.signature present = none then [method] else []) ++
      survivors (addTo present method) later

theorem survivors_sublist (present methods : List Method) :
    (survivors present methods).Sublist methods := by
  induction methods generalizing present with
  | nil => exact .slnil
  | cons method later ih =>
    rw [survivors]
    split
    · exact (ih _).cons_cons method
    · exact (ih _).cons method

/-- A method that is added comes last among those of its name, if it is put in at all. -/
theorem forall₂_filter_addTo (present : List Method) (method : Method) (name : String) :
    List.Forall₂ Becomes
      ((present ++ if matching? method.signature present = none then [method] else []).filter
        (·.name = name))
      ((addTo present method).filter (·.name = name)) := by
  rw [addTo]
  cases matched : matching? method.signature present with
  | some found =>
    obtain ⟨front, behind, rfl, position, -, agree⟩ := exists_of_matching? matched
    rw [if_neg (by simp), List.append_nil]
    dsimp only
    rw [absorbAt_append_cons method position]
    exact forall₂_becomes_filter (forall₂_becomes_absorb front behind agree) name
  | none =>
    have put : (present ++ [method]).filter (·.name = name) =
        (insertGrouped present method).filter (·.name = name) := by
      rw [filter_insertGrouped, List.filter_append, List.filter_singleton]
      simp
    rw [if_pos rfl, put]
    exact forall₂_becomes_refl _

/-- Of each name, the methods that were there come first, and behind them those that are put in. -/
theorem forall₂_filter_foldl_addTo (present methods : List Method) (name : String) :
    List.Forall₂ Becomes ((present ++ survivors present methods).filter (·.name = name))
      ((methods.foldl addTo present).filter (·.name = name)) := by
  induction methods generalizing present with
  | nil =>
    rw [survivors, List.append_nil]
    exact forall₂_becomes_refl _
  | cons method later ih =>
    have first := forall₂_becomes_append (forall₂_filter_addTo present method name)
      (forall₂_becomes_refl ((survivors (addTo present method) later).filter (·.name = name)))
    rw [← List.filter_append, ← List.filter_append, List.append_assoc] at first
    exact forall₂_trans first (ih (addTo present method)) Becomes.trans

end Method

namespace ClassPage

variable {page : ClassPage}

/-- The methods of one name stand together. -/
def HasGroupedMethods (page : ClassPage) : Prop :=
  Grouped (page.methods.map Method.name)

instance (page : ClassPage) : Decidable page.HasGroupedMethods :=
  inferInstanceAs (Decidable (Grouped _))

theorem HasGroupedMethods.change (grouped : page.HasGroupedMethods) (change : PageChange) :
    (change.apply page).HasGroupedMethods := by
  cases change with
  | addMethod method => exact (Method.joins_addTo page.methods method).grouped grouped
  | normalize expanded => exact Method.grouped_deduplicate _
  | sort => exact Method.grouped_sortByName page.methods

/-- When aliases are substituted, the methods of a name that are left stand in their order. -/
theorem methodsNamed_normalize (expanded : ExpandedTable) (page : ClassPage) (name : String) :
    List.Forall₂ Method.Becomes
      ((Method.survivors [] (page.methods.map (Method.normalize expanded page.scope))).filter
        (·.name = name))
      ((page.normalize expanded).methodsNamed name) :=
  Method.forall₂_filter_foldl_addTo [] _ name

theorem methodsNamed_sort (page : ClassPage) (name : String) :
    page.sort.methodsNamed name = page.methodsNamed name :=
  filter_sortByName Method.name page.methods name

end ClassPage

namespace Library

/-- A comment joins the methods of one page of the library, or none. -/
theorem joins_addComment {library : Library} {page : ClassPage} {name : String}
    (known : library.page? name = some page) (className : String) (comment : Method)
    (expanded : ExpandedTable) :
    ∃ methods, (library.addComment className comment expanded).1.page? name =
        some { page with methods } ∧
      (methods = page.methods ∨ Method.Joins page.methods methods) := by
  by_cases same : name = className
  · subst same
    have isPage : ∀ other, library.page? name = some other → other = page :=
      fun other isOther => Option.some.inj (isOther.symm.trans known)
    refine addComment_cases ?unknownClass ?merged ?inherited ?unmatched
    case unknownClass => exact fun _ => ⟨page.methods, known, .inl rfl⟩
    case merged =>
      intro other found isOther matched
      obtain rfl := isPage other isOther
      exact ⟨_, page?_setMethods known, .inr (Method.joins_absorbAt matched)⟩
    case inherited =>
      intro other found isOther _ _
      obtain rfl := isPage other isOther
      exact ⟨_, page?_setMethods known, .inr (Method.joins_insertGrouped other.methods _)⟩
    case unmatched => exact fun _ _ _ _ => ⟨page.methods, known, .inl rfl⟩
  · have unchanged := (library.addComment_frame className comment expanded).2.2.2.2 name same
    exact ⟨page.methods, unchanged.trans known, .inl rfl⟩

end Library

/-- A page comes about: it has no methods at first, and then declarations are added, aliases are
substituted, members are sorted, and comments are added to a library that the page is in. -/
inductive ClassPage.ComesAbout : ClassPage → Prop where
  | new {page : ClassPage} (empty : page.methods = []) : page.ComesAbout
  | change {page : ClassPage} (earlier : page.ComesAbout) (change : PageChange) :
      (change.apply page).ComesAbout
  | comment {library : Library} {name : String} {page after : ClassPage}
      (earlier : page.ComesAbout) (known : library.page? name = some page) (className : String)
      (comment : Method) (expanded : ExpandedTable)
      (commented : (library.addComment className comment expanded).1.page? name = some after) :
      after.ComesAbout

theorem ClassPage.ComesAbout.hasGroupedMethods {page : ClassPage} (comesAbout : page.ComesAbout) :
    page.HasGroupedMethods := by
  induction comesAbout with
  | new empty =>
    rw [HasGroupedMethods, empty]
    exact grouped_nil
  | change _ change ih => exact ih.change change
  | comment _ known className comment expanded commented ih =>
    obtain ⟨methods, found, same | joins⟩ :=
      Library.joins_addComment known className comment expanded
    · obtain rfl := Option.some.inj (found.symm.trans commented)
      rwa [HasGroupedMethods, same]
    · obtain rfl := Option.some.inj (found.symm.trans commented)
      exact joins.grouped ih

/-- Overloads stand together and in order.  On every page that comes about, methods of one name
stand side by side.  A declaration or a comment that is added moves none of the methods that are
there, on no page of the library.  When aliases are substituted, the methods of a name that are not
absorbed by others stand in their order, and sorting leaves all methods of a name in theirs. -/
theorem overloads_grouped_inOrder :
    (∀ page : ClassPage, page.ComesAbout → page.HasGroupedMethods) ∧
    (∀ (page : ClassPage) (method : Method),
      Method.StayInOrder page.methods (page.addMethod method).methods) ∧
    (∀ (library : Library) (className : String) (comment : Method) (expanded : ExpandedTable)
      (name : String) (page : ClassPage), library.page? name = some page →
      ∃ after, (library.addComment className comment expanded).1.page? name = some after ∧
        Method.StayInOrder page.methods after.methods) ∧
    (∀ (page : ClassPage) (expanded : ExpandedTable),
      let normalized := page.methods.map (Method.normalize expanded page.scope)
      (Method.survivors [] normalized).Sublist normalized ∧
        ∀ name, List.Forall₂ Method.Becomes
          ((Method.survivors [] normalized).filter (·.name = name))
          ((page.normalize expanded).methodsNamed name)) ∧
    ∀ (page : ClassPage) (name : String), page.sort.methodsNamed name = page.methodsNamed name := by
  refine ⟨fun page => ClassPage.ComesAbout.hasGroupedMethods, fun page method => ?_, ?_,
    fun page expanded => ⟨Method.survivors_sublist [] _, page.methodsNamed_normalize expanded⟩,
    ClassPage.methodsNamed_sort⟩
  · exact (Method.joins_addTo page.methods method).stayInOrder
  · intro library className comment expanded name page known
    obtain ⟨methods, found, same | joins⟩ :=
      Library.joins_addComment known className comment expanded
    · exact ⟨_, found, same ▸ .refl _⟩
    · exact ⟨_, found, joins.stayInOrder⟩

/-- A class with two overloads that are declared around another method gets a third one from an
ancestor.  The alias makes two of the three equal, and the members are sorted. -/
theorem overloads_grouped_inOrder_find :
    let find (key : String) : Method :=
      ⟨"Find", "", [⟨"key", "", tokenize key⟩], tokenize "Cog", false, []⟩
    let attach : Method := ⟨"Attach", "", [], tokenize "void", false, []⟩
    let aliases := AliasTable.empty.insert (.ofDeclaration .outermost "Index" "typedef int Index")
    let declared : ClassPage := { ClassPage.ofName "Space" with
      base? := some "Object", methods := [find "String", find "Index", attach] }
    let library :=
      ((Library.ofEvents .empty).addPages
        [{ ClassPage.ofName "Object" with methods := [find "int"] }, declared]).1
    let commented : ClassPage :=
      { declared with methods := [find "String", find "Index", find "int", attach] }
    let final := (commented.normalize aliases.expand.1).sort
    ((({ declared with methods := [] }.addMethod (find "String")).addMethod attach).addMethod
      (find "Index")) = declared ∧
    (library.addComment "Space" (find "int") .empty).1.page? "Space" = some commented ∧
    final.ComesAbout ∧ final.HasGroupedMethods ∧
    (commented.normalize aliases.expand.1).methods = [find "String", find "int", attach] ∧
    Method.StayInOrder declared.methods commented.methods ∧
    List.Forall₂ Method.Becomes [find "String", find "int"] (final.methodsNamed "Find") := by
  intro find attach aliases declared library commented final
  have added : ((({ declared with methods := [] }.addMethod (find "String")).addMethod
      attach).addMethod (find "Index")) = declared := by decide +kernel
  have known : library.page? "Space" = some declared := by decide +kernel
  have inherited : (library.addComment "Space" (find "int") .empty).1.page? "Space" =
      some commented := by decide +kernel
  have declares : declared.ComesAbout := by
    rw [← added]
    exact (((ClassPage.ComesAbout.new rfl).change (.addMethod _)).change (.addMethod _)).change
      (.addMethod _)
  have comesAbout : final.ComesAbout :=
    ((declares.comment known "Space" (find "int") .empty inherited).change
      (.normalize aliases.expand.1)).change .sort
  have survive : (Method.survivors []
      (commented.methods.map (Method.normalize aliases.expand.1 commented.scope))).filter
        (·.name = "Find") = [find "String", find "int"] := by decide +kernel
  obtain ⟨grouped, -, inOrder, normalized, sorted⟩ := overloads_grouped_inOrder
  obtain ⟨after, isAfter, stay⟩ :=
    inOrder library "Space" (find "int") .empty "Space" declared known
  obtain rfl := Option.some.inj (inherited.symm.trans isAfter)
  refine ⟨added, inherited, comesAbout, grouped final comesAbout, by decide +kernel, stay, ?_⟩
  rw [sorted, ← survive]
  exact (normalized commented aliases.expand.1).2 "Find"

end ApiReference
