import CanonicalXml.Proofs.BaseUri.Joining
import CanonicalXml.Proofs.Inherited.Attributes
import CanonicalXml.Proofs.Parsed.Drafts

/-! # Base URIs that elements inherit

An element whose parent is not output takes the base URIs of the omitted elements, joined with each
other and with its own.  A reader who joins what is written finds the base URIs of the source, as
long as every join is faithful.

* `Ancestor.base`, `AttributeReader.base` — the base URI of an element, in the source and as it is
  written.
* `Request.KeepsBase` — the joins that an element asks for are faithful.
* `Walk.bases_kept` — the reader finds the base URI of every element.
* `Walk.bases_lost` — a base that is not known as a directory.
-/

namespace CanonicalXml

open NamespaceAxis Transcript

/-! ## Base URIs -/

/-- The base URI of the first of these elements in a document with the base URI `outer`. -/
def Ancestor.base (outer : String) : List Ancestor → String
  | [] => outer
  | a :: above =>
    match a.element.xmlAttribute? "base" with
    | some uri => joinUri (base outer above) uri
    | none => base outer above

/-- The base URI inside of the open tags. -/
def AttributeReader.base (outer : String) : Tags → String
  | [] => outer
  | (_, attributes) :: tags =>
    match attributes.find? (·.isXml "base") with
    | some a => joinUri (base outer tags) a.value
    | none => base outer tags

/-- What the reader expects of a piece: the base URI that the element has in the source. -/
def AttributeReader.KeepsBase (outer : String) (tags : Tags) : Piece → Prop
  | .startTag loc _ _ attributes =>
    ∃ e, loc.element? = some e ∧ base outer ((loc.number, attributes) :: tags) =
      Ancestor.base outer (⟨loc.number, e⟩ :: loc.ancestors)
  | .bare _ _ | .leaf _ _ | .endTag _ => True

@[simp] theorem joinUri_empty (base : String) : joinUri base "" = base := by
  simp [joinUri]

@[simp] theorem empty_joinUri (reference : String) : joinUri "" reference = reference := by
  simp [joinUri]

/-- An element without a base URI has that of what is around it. -/
theorem Ancestor.base_cons (outer : String) (a : Ancestor) (above : List Ancestor) :
    base outer (a :: above) =
      joinUri (base outer above) ((a.element.xmlAttribute? "base").getD "") := by
  rw [base]
  cases a.element.xmlAttribute? "base" with
  | some uri => rfl
  | none => exact (joinUri_empty _).symm

theorem AttributeReader.base_cons (outer : String) (number : Nat)
    (attributes : List WrittenAttribute) (tags : Tags) :
    base outer ((number, attributes) :: tags) = joinUri (base outer tags)
      (((attributes.find? (·.isXml "base")).map (·.value)).getD "") := by
  rw [base]
  cases attributes.find? (·.isXml "base") with
  | some a => rfl
  | none => exact (joinUri_empty _).symm

/-! ## What is taken from around an element -/

theorem Element.xmlAttributes_distinct {e : Element}
    (apart : e.attributes.Pairwise Attribute.Apart) : (e.xmlAttributes.map Prod.fst).Nodup := by
  rw [xmlAttributes, List.map_map]
  refine List.pairwise_map.mpr ((apart.filter _).imp_of_mem ?_)
  intro a b inA inB different same
  have xmlA := of_decide_eq_true (List.mem_filter.mp inA).2
  have xmlB := of_decide_eq_true (List.mem_filter.mp inB).2
  exact different ⟨xmlA.trans xmlB.symm, same⟩

/-- The base URI that elements make is that of the innermost one in a document without one. -/
theorem Request.inheritedBase_eq {chain : List Ancestor}
    (apart : ∀ a ∈ chain, a.element.attributes.Pairwise Attribute.Apart) :
    inheritedBase chain = Ancestor.base "" chain := by
  induction chain with
  | nil => rfl
  | cons a above ih =>
    obtain ⟨here, rest⟩ := List.forall_mem_cons.mp apart
    rw [Ancestor.base_cons, ← ih rest, Element.xmlAttribute?_eq]
    simp only [inheritedBase]
    rw [List.flatMap_cons, List.filter_append, List.foldr_append,
      filter_name_eq (Element.xmlAttributes_distinct here)]
    cases a.element.xmlAttributes.find? (·.1 = "base") with
    | some entry => rfl
    | none => exact (joinUri_empty _).symm

theorem joinedValue_base (base value : String) :
    joinedValue base "base" value = joinUri base value := by
  rw [joinedValue]
  by_cases empty : base = "" <;> simp [empty]

/-- What is written as the base URI of an element: its own, joined with what it takes. -/
theorem Element.base_carrying (around : List Ancestor) (e : Element) :
    ((e.carrying .revised around).xmlAttribute? "base").getD "" =
      joinUri (Request.inheritedBase around) ((e.xmlAttribute? "base").getD "") := by
  have nothing : Request.inheritable .revised "base" = false := by decide
  rw [xmlAttribute?_carrying, takenValue?, nothing, if_neg Bool.false_ne_true, Option.none_or]
  simp only [baseAround, if_true]
  cases e.xmlAttribute? "base" with
  | some value => exact joinedValue_base _ value
  | none => by_cases empty : Request.inheritedBase around = "" <;> simp [empty]

/-! ## Faithful joins -/

namespace Request

variable {r : Request} {outer : String} {tags : AttributeReader.Tags} {a : Ancestor}
  {above : List Ancestor}

/-- The base URI that an element takes from the omitted elements around it. -/
def takenBase (r : Request) (above : List Ancestor) : String :=
  Ancestor.base "" (r.omittedAncestors above)

/-- The joins that an element asks for are faithful: its base URI is joined with what is in effect
around it, and with what it takes.  An element that is output and takes nothing asks for none. -/
def KeepsBase (r : Request) (outer : String) (a : Ancestor) (above : List Ancestor) : Prop :=
  r.ancestorIsOutput (a :: above) = true ∧ r.takenBase above = "" ∨
    ∀ uri ∈ a.element.xmlAttribute? "base",
      JoinsFaithfully (Ancestor.base outer above).toList uri.toList ∧
        JoinsFaithfully (r.takenBase above).toList uri.toList

/-- So it is for all of these elements. -/
def KeepsBases (r : Request) (outer : String) : List Ancestor → Prop
  | [] => True
  | a :: above => r.KeepsBase outer a above ∧ KeepsBases r outer above

instance (r : Request) (outer : String) (a : Ancestor) (above : List Ancestor) :
    Decidable (r.KeepsBase outer a above) :=
  inferInstanceAs (Decidable (_ ∧ _ ∨ ∀ uri ∈ a.element.xmlAttribute? "base", _ ∧ _))

instance (r : Request) (outer : String) : DecidablePred (r.KeepsBases outer) := decideAll
where
  decideAll : (chain : List Ancestor) → Decidable (r.KeepsBases outer chain)
    | [] => .isTrue trivial
    | a :: above =>
      have := decideAll above
      inferInstanceAs (Decidable (r.KeepsBase outer a above ∧ r.KeepsBases outer above))

end Request

/-- All joins that are asked for inside of an input and around it are faithful. -/
structure Input.KeepsBases (r : Request) (outer : String) (input : Input) : Prop where
  around : r.KeepsBases outer input.ancestors
  inside : ∀ loc ∈ input.locations, ∀ e ∈ loc.element?,
    r.KeepsBase outer ⟨loc.number, e⟩ loc.ancestors

instance (r : Request) (outer : String) : DecidablePred (Input.KeepsBases r outer) := fun input =>
  decidable_of_iff (_ ∧ ∀ loc ∈ input.locations, ∀ e ∈ loc.element?,
      r.KeepsBase outer ⟨loc.number, e⟩ loc.ancestors)
    ⟨fun h => ⟨h.1, h.2⟩, fun h => ⟨h.around, h.inside⟩⟩

namespace AttributeReader

variable {r : Request} {outer : String} {tags : Tags} {a : Ancestor} {above : List Ancestor}

/-- What is taken from the omitted elements, joined with the base URI that the reader knows, is the
base URI of the source. -/
structure FollowsBase (r : Request) (outer : String) (tags : Tags) (chain : List Ancestor) :
    Prop where
  joined : Joined (base outer tags).toList (r.takenBase chain).toList
    (Ancestor.base outer chain).toList
  absolute : UriParts.HasScheme (base outer tags).toList

/-- What an element joins, where it joins anything. -/
theorem FollowsBase.step (follows : FollowsBase r outer tags above)
    (faithful : ∀ uri ∈ a.element.xmlAttribute? "base",
      JoinsFaithfully (Ancestor.base outer above).toList uri.toList ∧
        JoinsFaithfully (r.takenBase above).toList uri.toList) :
    Joined (base outer tags).toList
      (joinUri (r.takenBase above) ((a.element.xmlAttribute? "base").getD "")).toList
      (Ancestor.base outer (a :: above)).toList := by
  rw [Ancestor.base_cons, toList_joinUri, toList_joinUri]
  cases own : a.element.xmlAttribute? "base" with
  | none => simpa using follows.joined
  | some uri =>
    obtain ⟨source, inner⟩ := faithful uri own
    exact follows.joined.step (UriParts.hasScheme_iff.mp follows.absolute) inner source

/-- An omitted element joins its base URI with what is taken inside of it. -/
theorem FollowsBase.omit (follows : FollowsBase r outer tags above)
    (omitted : r.ancestorIsOutput (a :: above) = false) (keeps : r.KeepsBase outer a above) :
    FollowsBase r outer tags (a :: above) := by
  have taken : r.takenBase (a :: above) =
      joinUri (r.takenBase above) ((a.element.xmlAttribute? "base").getD "") := by
    rw [Request.takenBase, Request.omittedAncestors, omitted, if_neg Bool.false_ne_true,
      Ancestor.base_cons]
    rfl
  refine ⟨?_, follows.absolute⟩
  rw [taken]
  refine follows.step (keeps.resolve_left fun output => ?_)
  rw [omitted] at output
  cases output.1

/-- What is written on an element is joined with what the reader knows around it. -/
theorem FollowsBase.render {loc : Location} {e : Element} {attributes : List WrittenAttribute}
    (follows : FollowsBase r outer tags loc.ancestors)
    (output : r.ancestorIsOutput (⟨loc.number, e⟩ :: loc.ancestors) = true)
    (keeps : r.KeepsBase outer ⟨loc.number, e⟩ loc.ancestors)
    (written : ((attributes.find? (·.isXml "base")).map (·.value)).getD "" =
      joinUri (r.takenBase loc.ancestors) ((e.xmlAttribute? "base").getD "")) :
    base outer ((loc.number, attributes) :: tags) =
        Ancestor.base outer (⟨loc.number, e⟩ :: loc.ancestors) ∧
      FollowsBase r outer ((loc.number, attributes) :: tags)
        (⟨loc.number, e⟩ :: loc.ancestors) := by
  have same : base outer ((loc.number, attributes) :: tags) =
      Ancestor.base outer (⟨loc.number, e⟩ :: loc.ancestors) := by
    rw [base_cons, written]
    rcases keeps with ⟨-, nothing⟩ | faithful
    · -- Nothing is joined, so that the reader knows the base URI around the element.
      have around := follows.joined.result
      rw [nothing, String.toList_empty, resolveUri_nil, String.toList_inj] at around
      rw [nothing, empty_joinUri, Ancestor.base_cons, around]
    · have result := (follows.step faithful).result
      rw [← toList_joinUri, String.toList_inj] at result
      exact result
  have taken : r.takenBase (⟨loc.number, e⟩ :: loc.ancestors) = "" := by
    rw [Request.takenBase, Request.omittedAncestors_of_output output]
    rfl
  refine ⟨same, ⟨?_, ?_⟩⟩
  · rw [taken, same]
    exact Joined.nil _
  · rw [base_cons, toList_joinUri]
    exact UriParts.hasScheme_resolveUri follows.absolute _

end AttributeReader

namespace Walk

open AttributeReader

variable {d : Document} {withComments : Bool} {input : Input} {params : Params} {outer : String}

/-- The base URI that is written on an element is its own, joined with what it takes. -/
theorem base_written {r : Request} {axis : NamespaceAxis} {loc : Location} {e : Element}
    {attributes : List WrittenAttribute} (kind : r.method = Mode.method .inclusive11 withComments)
    (included : r.excludesAttributes = false)
    (apart : ∀ a ∈ loc.ancestors, a.element.attributes.Pairwise Attribute.Apart)
    (written : r.writtenAttributes axis loc e (loc.spelling e) (r.ancestorIsOutput loc.ancestors) =
      .ok attributes) :
    ((attributes.find? (·.isXml "base")).map (·.value)).getD "" =
      joinUri (r.takenBase loc.ancestors) ((e.xmlAttribute? "base").getD "") := by
  rw [Request.value_writtenAttributes included written, Request.carrier, Request.takenBase]
  cases parent : r.ancestorIsOutput loc.ancestors with
  | true =>
    rw [Request.omittedAncestors_of_output parent, if_pos rfl]
    exact (empty_joinUri _).symm
  | false =>
    have taken : Request.inheritedBase (r.omittedAncestors loc.ancestors) =
        Ancestor.base "" (r.omittedAncestors loc.ancestors) :=
      Request.inheritedBase_eq fun a member => apart a (r.omittedAncestors_subset _ member)
    rw [if_neg Bool.false_ne_true, kind, ← taken]
    exact Element.base_carrying _ e

/-- The invariant of the walk: the reader follows the base URIs of the source. -/
theorem invariant_bases (taken : input.Of d)
    (sound : d.content.All Leaf.Sound Element.Sound)
    (included : (Request.of (Mode.method .inclusive11 withComments) input params).excludesAttributes =
      false)
    (keeps : input.KeepsBases (.of (Mode.method .inclusive11 withComments) input params) outer) :
    Invariant (.of (Mode.method .inclusive11 withComments) input params) (· ∈ input.locations)
      AttributeReader.next (AttributeReader.KeepsBase outer)
      fun tags chain _ => FollowsBase (.of (Mode.method .inclusive11 withComments) input params)
        outer tags chain := by
  constructor
  · intro tags _ loc l _ _ _
    exact ⟨trivial, rfl⟩
  · intro tags _ loc e visited here follows omitted
    rw [Request.isOutput_eq taken visited e] at omitted
    exact ⟨trivial, rfl, follows.omit omitted (keeps.inside loc visited e here)⟩
  · intro tags _ loc e attributes visited here follows output _ _ _ written
    rw [Request.isOutput_eq taken visited e] at output
    have around := Location.forall_ancestors sound (taken.locations_subset visited)
    obtain ⟨same, inside⟩ := follows.render output (keeps.inside loc visited e here)
      (base_written rfl included (fun a member => (around a member).apart) written)
    exact ⟨⟨e, here, same⟩, inside, trivial, rfl⟩

/-- Around an input everything is omitted. -/
theorem followsBase_around {r : Request} (absolute : UriParts.HasScheme outer.toList) :
    ∀ {chain : List Ancestor}, r.KeepsBases outer chain →
      (∀ {above : List Ancestor}, above <:+ chain → r.ancestorIsOutput above = false) →
      FollowsBase r outer [] chain
  | [], _, _ => ⟨Joined.nil _, absolute⟩
  | a :: above, keeps, omitted => by
    have follows := followsBase_around absolute keeps.2
      fun suffix => omitted (suffix.trans (List.suffix_cons a above))
    exact follows.omit (omitted (List.suffix_refl _)) keeps.1

/-- Omitting elements changes no base URI: a reader who joins the base URIs that a walk writes
finds those of the source, if all joins on the way are faithful. -/
theorem bases_kept {text : String} {options : ReadOptions}
    (parsed : Document.read text options = .ok d) (taken : input.Of d)
    (included : (Request.of (Mode.method .inclusive11 withComments) input params).excludesAttributes =
      false) (absolute : UriParts.HasScheme outer.toList)
    (keeps : input.KeepsBases (.of (Mode.method .inclusive11 withComments) input params) outer) :
    Along AttributeReader.next (AttributeReader.KeepsBase outer) (fun tags _ => tags = []) []
      (ofInput (Mode.method .inclusive11 withComments) input params) := by
  obtain ⟨sound, -⟩ := Document.sound_of_read parsed
  refine Along.mono (fun _ _ h => h.1)
    ((invariant_bases taken sound included keeps).along_ofInput taken (s := []) ?_)
  exact followsBase_around absolute keeps.around
    fun around => Request.ancestorIsOutput_of_suffix taken around

/-- An element takes the base URIs of two omitted ones. -/
theorem bases_kept_omitted :
    let text := "<a xml:base='http://h/d/'><b xml:base='e/k/?q'><c xml:base='../'><x xml:base='f'/></c></b></a>"
    let method := Mode.method .inclusive11 false
    ∃ d input, Document.read text = .ok d ∧ input.Of d ∧
      (Request.of method input {}).excludesAttributes = false ∧
      UriParts.HasScheme "http://x/y".toList ∧
      input.KeepsBases (.of method input {}) "http://x/y" ∧
      Along AttributeReader.next (AttributeReader.KeepsBase "http://x/y") (fun tags _ => tags = [])
        [] (ofInput method input {}) := by
  intro text method
  let d := (Document.read text).toOption.getD ⟨"", .nil⟩
  let input := Input.nodeSet d (.ofList [1, 4])
  have parsed : Document.read text = .ok d := by decide +kernel
  have taken : input.Of d := .nodeSet _
  have included : (Request.of method input {}).excludesAttributes = false := by decide
  have absolute : UriParts.HasScheme "http://x/y".toList := UriParts.hasScheme_iff.mpr (by decide)
  have keeps : input.KeepsBases (.of method input {}) "http://x/y" := by decide +kernel
  exact ⟨d, input, parsed, taken, included, absolute, keeps,
    bases_kept parsed taken included absolute keeps⟩

/-- The path of a base ends in dots, but its text does not: the base is not known as a directory,
and the element is given another base URI than it has. -/
theorem bases_lost :
    let text := "<a xml:base='x/..?q'><b xml:base='y'/></a>"
    let method := Mode.method .inclusive11 false
    ∃ d loc e, Document.read text = .ok d ∧ loc ∈ d.locations ∧ loc.element? = some e ∧
      (canonicalize method (.subtree (.node loc)) {}).result = .ok "<b xml:base=\"x/y\"></b>" ∧
      joinUri "http://h/" "x/y" = "http://h/x/y" ∧
      Ancestor.base "http://h/" (⟨loc.number, e⟩ :: loc.ancestors) = "http://h/y" := by
  intro text method
  let d := (Document.read text).toOption.getD ⟨"", .nil⟩
  let loc := (d.locate? 2).getD (.top d.content)
  let base : Attribute := ⟨some xmlNamespace, "base", "y"⟩
  let e : Element := ⟨none, "b", [base], [], some ⟨"b", [⟨"xml:base", "y"⟩]⟩⟩
  refine ⟨d, loc, e, ?_⟩
  decide +kernel

end Walk

end CanonicalXml
