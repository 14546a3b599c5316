import ApiReference.Proofs.Library.Lookup
import Mathlib.Data.List.Chain
import Mathlib.Data.List.Perm.Subperm

/-!
# What the bases lead to

The walk along the bases takes out of the library every class it comes to.  Seen from the library,
it remembers the names it has visited, and goes on from a base as long as there is a class of that
name which it has not visited (`lineage_beyond_induction`).

So it comes to no class twice, each class is the base of the one before, and a class that is the
base of one on the way is itself on the way (`mem_lineage_beyond_of_hasBase`).  The last fact makes
the ancestors of a class all the other classes that can be reached from it, whatever circles the
bases run in (`mem_line_iff`, `isLineAbove_ancestors`).
-/

set_option autoImplicit false

namespace ApiReference

/-! ## Changed pages -/

namespace ClassPage

variable {change : ClassPage → ClassPage}

theorem without_map (keepsName : ∀ page, (change page).name = page.name) (name : String)
    (pages : List ClassPage) :
    without name (pages.map change) = (without name pages).map change := by
  rw [without, without, List.filter_map]
  simp only [Function.comp_def, keepsName]

/-- A change that keeps names and bases changes nothing about where the walk goes. -/
theorem lineage_map (keepsName : ∀ page, (change page).name = page.name)
    (keepsBase : ∀ page, (change page).base? = page.base?) (pages : List ClassPage)
    (base? : Option String) :
    lineage (pages.map change) base? = (lineage pages base?).map change := by
  have found (pages : List ClassPage) (name : String) :
      (pages.map change).find? (·.name = name) = (pages.find? (·.name = name)).map change := by
    rw [List.find?_map]
    simp only [Function.comp_def, keepsName]
  induction pages, base? using lineage.induct with
  | case1 pages =>
    rw [lineage, lineage]
    rfl
  | case2 pages name missing =>
    rw [lineage_some, lineage_some, found, missing]
    rfl
  | case3 pages name page here ih =>
    rw [lineage_some, lineage_some, found, here, Option.map_some, Option.map_some, Option.map_some,
      without_map keepsName, keepsBase, ih]
    rfl

end ClassPage

namespace Library

variable {library : Library} {page lower upper other : ClassPage} {name : String}

/-! ## Bases -/

/-- A page is that of the class which another page names as its base. -/
def HasBase (library : Library) (lower upper : ClassPage) : Prop :=
  lower.base?.bind library.page? = some upper

theorem hasBase_iff :
    library.HasBase lower upper ↔
      ∃ name, lower.base? = some name ∧ library.page? name = some upper :=
  Option.bind_eq_some_iff

theorem HasBase.mem (base : library.HasBase lower upper) :
    upper ∈ library.pages := by
  obtain ⟨name, -, known⟩ := hasBase_iff.mp base
  exact (page?_eq_some_iff.mp known).1

theorem HasBase.page? (base : library.HasBase lower upper)
    (named : lower.base? = some name) : library.page? name = some upper := by
  rwa [HasBase, named, Option.bind_some] at base

/-! ## The walk, seen from the library -/

/-- The pages of a library under names that were not visited. -/
def beyond (library : Library) (visited : List String) : List ClassPage :=
  library.pages.filter (·.name ∉ visited)

theorem find?_beyond (library : Library) (visited : List String) (name : String) :
    (library.beyond visited).find? (·.name = name) =
      if name ∈ visited then none else library.page? name := by
  rw [beyond, List.find?_filter]
  split
  · rename_i known
    refine List.find?_eq_none.mpr fun page _ => ?_
    simp only [decide_eq_true_eq, not_and]
    exact fun unvisited same => unvisited (same ▸ known)
  · rename_i unknown
    rw [page?_eq]
    refine congrArg (library.pages.find? ·) (funext fun page => ?_)
    by_cases same : page.name = name
    · simp [same, unknown]
    · simp [same]

theorem without_beyond (library : Library) (visited : List String) (name : String) :
    ClassPage.without name (library.beyond visited) = library.beyond (name :: visited) := by
  rw [ClassPage.without, beyond, beyond, List.filter_filter]
  refine List.filter_congr fun page _ => ?_
  simp

/-- The walk ends at a class without a base, at a base that is missing or at one that was visited,
and otherwise goes on at the class that the base names. -/
@[elab_as_elim]
theorem lineage_beyond_induction {motive : List String → Option String → List ClassPage → Prop}
    (noBase : ∀ visited, motive visited none [])
    (missing : ∀ visited name, library.page? name = none → motive visited (some name) [])
    (revisits : ∀ visited name, name ∈ visited → motive visited (some name) [])
    (climbs : ∀ visited name page line, name ∉ visited → library.page? name = some page →
      motive (name :: visited) page.base? line → motive visited (some name) (page :: line))
    (visited : List String) (base? : Option String) :
    motive visited base? (ClassPage.lineage (library.beyond visited) base?) := by
  generalize remaining : library.beyond visited = pages
  induction pages, base? using ClassPage.lineage.induct generalizing visited with
  | case1 pages =>
    rw [ClassPage.lineage]
    exact noBase visited
  | case2 pages name unfound =>
    rw [ClassPage.lineage_some, unfound]
    rw [← remaining, find?_beyond] at unfound
    split at unfound
    · rename_i known
      exact revisits visited name known
    · exact missing visited name unfound
  | case3 pages name page found ih =>
    rw [ClassPage.lineage_some, found]
    rw [← remaining, find?_beyond] at found
    split at found
    · cases found
    · rename_i unknown
      refine climbs visited name page _ unknown found (ih (name :: visited) ?_)
      rw [← remaining, without_beyond]

/-! ## On the way -/

/-- The walk comes to classes of the library that were not visited, and to none of them twice. -/
theorem lineage_beyond_distinct (library : Library) (visited : List String)
    (base? : Option String) :
    let line := ClassPage.lineage (library.beyond visited) base?
    (∀ other ∈ line, other ∈ library.pages ∧ other.name ∉ visited) ∧
      (line.map ClassPage.name).Nodup := by
  refine lineage_beyond_induction ?noBase ?missing ?revisits ?climbs visited base?
  case noBase => exact fun _ => ⟨List.forall_mem_nil _, List.nodup_nil⟩
  case missing => exact fun _ _ _ => ⟨List.forall_mem_nil _, List.nodup_nil⟩
  case revisits => exact fun _ _ _ => ⟨List.forall_mem_nil _, List.nodup_nil⟩
  case climbs =>
    rintro visited name page line unvisited known ⟨further, distinct⟩
    obtain ⟨member, rfl⟩ := page?_eq_some_iff.mp known
    refine ⟨List.forall_mem_cons.mpr ⟨⟨member, unvisited⟩, fun other later => ?_⟩, ?_⟩
    · exact ⟨(further other later).1, fun old => (further other later).2 (.tail _ old)⟩
    · refine List.nodup_cons.mpr ⟨fun again => ?_, distinct⟩
      obtain ⟨other, later, sameName⟩ := List.mem_map.mp again
      exact (further other later).2 (sameName ▸ List.mem_cons_self)

/-- Each class on the way is the base of the one before. -/
theorem lineage_beyond_isChain (visited : List String) (base? : Option String) :
    ∀ lower : ClassPage, lower.base? = base? →
      (lower :: ClassPage.lineage (library.beyond visited) base?).IsChain library.HasBase := by
  refine lineage_beyond_induction ?noBase ?missing ?revisits ?climbs visited base?
  case noBase => exact fun _ lower _ => List.isChain_singleton lower
  case missing => exact fun _ _ _ lower _ => List.isChain_singleton lower
  case revisits => exact fun _ _ _ lower _ => List.isChain_singleton lower
  case climbs =>
    intro visited name page line unvisited known onTheWay lower named
    exact .cons_cons (hasBase_iff.mpr ⟨name, named, known⟩) (onTheWay page rfl)

/-- The base of a class from which the walk starts, or to which it comes, is on the way, unless it
was visited before. -/
theorem mem_lineage_beyond_of_hasBase (visited : List String) (base? : Option String) :
    ∀ start : ClassPage, start.base? = base? →
      ∀ lower ∈ start :: ClassPage.lineage (library.beyond visited) base?,
        ∀ upper, library.HasBase lower upper →
          upper ∈ ClassPage.lineage (library.beyond visited) base? ∨ upper.name ∈ visited := by
  refine lineage_beyond_induction ?noBase ?missing ?revisits ?climbs visited base?
  case noBase =>
    intro visited start noBase lower isStart upper base
    obtain rfl := List.mem_singleton.mp isStart
    rw [HasBase, noBase] at base
    cases base
  case missing =>
    intro visited name missing start named lower isStart upper base
    obtain rfl := List.mem_singleton.mp isStart
    rw [base.page? named] at missing
    cases missing
  case revisits =>
    intro visited name known start named lower isStart upper base
    obtain rfl := List.mem_singleton.mp isStart
    exact Or.inr ((page?_eq_some_iff.mp (base.page? named)).2 ▸ known)
  case climbs =>
    intro visited name page line unvisited known onTheWay start named lower here upper base
    rcases List.mem_cons.mp here with rfl | further
    · obtain rfl : page = upper := Option.some.inj (known.symm.trans (base.page? named))
      exact Or.inl List.mem_cons_self
    · rcases onTheWay page rfl lower further upper base with later | old
      · exact Or.inl (List.mem_cons_of_mem page later)
      · rcases List.mem_cons.mp old with sameName | old
        · have again := page?_eq_some_iff.mpr ⟨base.mem, sameName⟩
          obtain rfl : page = upper := Option.some.inj (known.symm.trans again)
          exact Or.inl List.mem_cons_self
        · exact Or.inr old

/-! ## Ancestors -/

theorem ancestors_eq (known : library.page? name = some page) :
    library.ancestors name = ClassPage.lineage (library.beyond [name]) page.base? := by
  have others : ClassPage.without name library.pages = library.beyond [name] := by
    rw [← library.without_beyond [] name]
    simp [beyond]
  rw [ancestors, known, others]

/-- No class is twice in the line of a class, and all are classes of the library. -/
theorem line_distinct (known : page ∈ library.pages) :
    ((page :: library.ancestors page.name).map ClassPage.name).Nodup ∧
      page :: library.ancestors page.name ⊆ library.pages := by
  rw [ancestors_eq (page?_eq_some_iff.mpr ⟨known, rfl⟩)]
  obtain ⟨above, distinct⟩ :=
    lineage_beyond_distinct library [page.name] page.base?
  refine ⟨List.nodup_cons.mpr ⟨fun again => ?_, distinct⟩,
    List.cons_subset.mpr ⟨known, fun other member => (above other member).1⟩⟩
  obtain ⟨other, member, sameName⟩ := List.mem_map.mp again
  exact (above other member).2 (List.mem_singleton.mpr sameName)

theorem line_isChain (known : page ∈ library.pages) :
    (page :: library.ancestors page.name).IsChain library.HasBase := by
  rw [ancestors_eq (page?_eq_some_iff.mpr ⟨known, rfl⟩)]
  exact lineage_beyond_isChain [page.name] page.base? page rfl

/-- The base of a class in the line of another is in that line. -/
theorem mem_line_of_hasBase (known : page ∈ library.pages)
    (here : lower ∈ page :: library.ancestors page.name) (base : library.HasBase lower upper) :
    upper ∈ page :: library.ancestors page.name := by
  have found := page?_eq_some_iff.mpr ⟨known, rfl⟩
  rw [ancestors_eq found] at here ⊢
  rcases mem_lineage_beyond_of_hasBase [page.name] page.base? page rfl lower here upper base with
    above | start
  · exact List.mem_cons_of_mem page above
  · have again := page?_eq_some_iff.mpr ⟨base.mem, List.mem_singleton.mp start⟩
    obtain rfl : page = upper := Option.some.inj (found.symm.trans again)
    exact List.mem_cons_self

/-- The line of a class is made up of the classes that are reached by going from base to base. -/
theorem mem_line_iff (known : page ∈ library.pages) :
    other ∈ page :: library.ancestors page.name ↔
      Relation.ReflTransGen library.HasBase page other := by
  constructor
  · intro here
    rcases List.mem_cons.mp here with rfl | above
    · exact .refl
    · have climb := (line_isChain known).imp fun _ _ base => Relation.TransGen.single base
      exact (climb.rel_cons above).to_reflTransGen
  · intro reached
    induction reached with
    | refl => exact List.mem_cons_self
    | tail _ base here => exact mem_line_of_hasBase known here base

/-- The line of a class holds those of its ancestors. -/
theorem line_subset (known : page ∈ library.pages)
    (here : other ∈ page :: library.ancestors page.name) :
    other :: library.ancestors other.name ⊆ page :: library.ancestors page.name := by
  intro further member
  have reached := (mem_line_iff known).mp here
  have onward := (mem_line_iff ((line_distinct known).2 here)).mp member
  exact (mem_line_iff known).mpr (reached.trans onward)

/-- A change of the pages that keeps the bases changes the ancestors. -/
theorem ancestors_mapPages {change : ClassPage → ClassPage}
    (keeps : IndexedList.KeepsName ClassPage.name change)
    (keepsBase : ∀ page, (change page).base? = page.base?) (library : Library) (name : String) :
    (library.mapPages change keeps).ancestors name = (library.ancestors name).map change := by
  rw [ancestors, ancestors, page?_mapPages, pages_mapPages, ClassPage.without_map keeps]
  cases library.page? name with
  | none => rfl
  | some page =>
    simp only [Option.map_some, keepsBase]
    exact ClassPage.lineage_map keeps keepsBase _ page.base?

/-- What is said of the classes above a class, the nearest first. -/
structure IsLineAbove (library : Library) (page : ClassPage) (line : List ClassPage) : Prop where
  /-- No two of them are the same, and none is the class itself. -/
  distinct : ((page :: line).map ClassPage.name).Nodup
  /-- There are fewer of them than classes. -/
  shorter : line.length < library.size
  /-- Each is the base of the one before it, the first that of the class. -/
  climbs : (page :: line).IsChain library.HasBase
  /-- They are all the other classes that are reached by going from base to base. -/
  complete : ∀ other, other ∈ line ↔
    other ≠ page ∧ Relation.TransGen library.HasBase page other
  /-- The last one has no base, or one that is missing, or one that is among them or is the class
  itself. -/
  ends : ∀ last ∈ (page :: line).getLast?, last.base? = none ∨
    (∃ name, last.base? = some name ∧ library.page? name = none) ∨
    ∃ upper ∈ page :: line, library.HasBase last upper

/-- A class that is not in the library has no ancestors.  Those of any other class are the classes
above it, in whatever way the bases lead. -/
theorem isLineAbove_ancestors (library : Library) (name : String) :
    match library.page? name with
    | none => library.ancestors name = []
    | some page => library.IsLineAbove page (library.ancestors name) := by
  cases found : library.page? name with
  | none =>
    show library.ancestors name = []
    rw [ancestors, found]
  | some page =>
    obtain ⟨known, rfl⟩ := page?_eq_some_iff.mp found
    obtain ⟨distinct, pages⟩ := line_distinct known
    constructor
    case distinct => exact distinct
    case shorter => exact ((List.Nodup.of_map _ distinct).subperm pages).length_le
    case climbs => exact line_isChain known
    case complete =>
      intro other
      constructor
      · intro above
        have different : other ≠ page := by
          rintro rfl
          exact (List.nodup_cons.mp (List.Nodup.of_map _ distinct)).1 above
        have reached := (mem_line_iff known).mp (List.mem_cons_of_mem page above)
        exact ⟨different,
          (Relation.reflTransGen_iff_eq_or_transGen.mp reached).resolve_left different⟩
      · rintro ⟨different, reached⟩
        exact List.mem_of_ne_of_mem different ((mem_line_iff known).mpr reached.to_reflTransGen)
    case ends =>
      intro last isLast
      have here : last ∈ page :: library.ancestors page.name := List.mem_of_getLast? isLast
      cases named : last.base? with
      | none => exact Or.inl rfl
      | some base =>
        refine Or.inr ?_
        cases isClass : library.page? base with
        | none => exact Or.inl ⟨base, rfl, isClass⟩
        | some upper =>
          have base : library.HasBase last upper := hasBase_iff.mpr ⟨base, named, isClass⟩
          exact Or.inr ⟨upper, mem_line_of_hasBase known here base, base⟩

/-- The bases of the last two classes name each other. -/
example :
    let based (name base : String) : ClassPage := { ClassPage.ofName name with base? := some base }
    let library :=
      ((ofEvents .empty).addPages
        [based "Door" "Prop", based "Object" "Prop", based "Prop" "Object"]).1
    (library.ancestors "Door").map ClassPage.name = ["Prop", "Object"] := by
  decide +kernel

end Library

end ApiReference
