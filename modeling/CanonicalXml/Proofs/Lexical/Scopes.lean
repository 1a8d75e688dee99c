import CanonicalXml.Proofs.Comparison.Tags
import CanonicalXml.Proofs.Parsed.Elements
import CanonicalXml.Proofs.Readback.Scopes

/-! # Declarations and scopes

The declarations that a walk reads off start tags, or infers where it sees none, bind the prefixes
to what the tree has in scope.

* `Element.Regular` — an element at which the two agree.
* `RawAttribute.declaredPrefix?_eq` — what is a declaration to the one reader is one to the other.
* `Element.Known`, `Spelling.uri_of_mem_scopeChanges` — the declarations of an element whose tag is
  known, and of one whose tag is not.
* `Element.Stems.keepsPrefixes` — no declaration takes a prefix back that the tree does not.
* `Ancestor.inScope?_eq` — what is in scope, by induction over the ancestors.
-/

namespace CanonicalXml

/-! ## Regular elements -/

/-- An element whose names can be found again.  The tree takes any attribute with the local name
`xmlns` for a declaration of the default namespace, whatever its prefix is; where the tag is not
known, declarations are told from the bindings that are new, and prefixes by the first binding of a
namespace. -/
structure Element.Regular (outer : Scope) (e : Element) : Prop where
  /-- Only the default namespace is undeclared. -/
  bound : ∀ b ∈ e.scope, b.uri = "" → b.nsPrefix = ""
  /-- No plain attribute of a known tag has the local name `xmlns`. -/
  declares : ∀ tag ∈ e.tag, ∀ raw ∈ tag.plain, raw.name.localName ≠ xmlnsPrefix
  /-- Where the tag is not known no prefix is bound twice. -/
  distinct : e.tag = none →
    outer.Pairwise (·.nsPrefix ≠ ·.nsPrefix) ∧ e.scope.Pairwise (·.nsPrefix ≠ ·.nsPrefix)
  /-- Where the tag is not known the first binding of an attribute's namespace has a prefix. -/
  fitting : e.tag = none → ∀ a ∈ e.attributes, ∀ uri ∈ a.nsUri?,
    ∀ b ∈ e.scope.find? (·.uri = uri), b.nsPrefix ≠ ""

instance (outer : Scope) (e : Element) : Decidable (e.Regular outer) :=
  decidable_of_iff (_ ∧ _ ∧ _ ∧ _)
    ⟨fun h => ⟨h.1, h.2.1, h.2.2.1, h.2.2.2⟩,
      fun h => ⟨h.bound, h.declares, h.distinct, h.fitting⟩⟩

/-- All elements of a document are regular. -/
def Document.Regular (d : Document) : Prop :=
  ∀ loc ∈ d.locations, ∀ e ∈ loc.element?, e.Regular loc.outerScope

instance : DecidablePred Document.Regular := fun d =>
  inferInstanceAs (Decidable (∀ loc ∈ d.locations, ∀ e ∈ loc.element?, e.Regular loc.outerScope))

/-! ## Places -/

theorem Content.Stems.handedOn : Location.HandedOn fun loc => loc.here.Stems loc.outerScope where
  next {loc} stems := by
    obtain ⟨number, ancestors, before, here⟩ := loc
    cases here with
    | nil => exact stems
    | leaf l next => exact stems
    | element e inner next => exact stems.2.2
  inside here stems := by
    rw [here] at stems
    exact stems.2.1

theorem Content.Stems.allFrom {content : Content} {number : Nat} {ancestors : List Ancestor}
    {before : List NodeKind} (stems : content.Stems (Ancestor.scope ancestors)) :
    ∀ loc ∈ Location.allFrom number ancestors before content, ∀ e ∈ loc.element?,
      e.Stems loc.outerScope := by
  intro loc member e here
  obtain ⟨inner, next, same⟩ := Location.here_of_element? here
  have found := Content.Stems.handedOn.of_mem_allFrom stems loc member
  rw [same] at found
  exact found.1

/-! ## Known tags -/

/-- The two readers of a tag disagree about names with the local part `xmlns` only. -/
theorem RawAttribute.declaredPrefix?_eq {raw : RawAttribute}
    (declares : raw.declaredPrefix? = none → raw.name.localName ≠ xmlnsPrefix) :
    raw.declaredPrefix? = raw.name.declaredPrefix? := by
  by_cases default : raw.qname = xmlnsPrefix
  · have named : raw.name = ⟨"", xmlnsPrefix⟩ := by
      rw [RawAttribute.name, default]
      decide
    rw [RawAttribute.declaredPrefix?, if_pos default, named]
    decide
  · obtain ⟨before?, after, parts⟩ : ∃ before? after, QName.split raw.qname = (before?, after) :=
      ⟨_, _, rfl⟩
    have named : raw.name = ⟨before?.getD "", after⟩ := by
      simp only [RawAttribute.name, QName.ofText]
      rw [parts]
    have spelled : raw.declaredPrefix? =
        before?.bind fun before => if before = xmlnsPrefix then some after else none := by
      rw [RawAttribute.declaredPrefix?, if_neg default, parts]
      cases before? <;> rfl
    rw [spelled, named] at declares
    rw [spelled, named, QName.declaredPrefix?]
    cases before? with
    | none =>
      dsimp only [Option.getD]
      rw [if_neg (by decide), if_neg (declares rfl)]
      rfl
    | some before =>
      rw [Option.bind_some] at declares ⊢
      dsimp only [Option.getD]
      by_cases declaration : before = xmlnsPrefix
      · rw [if_pos declaration, if_pos declaration]
      · rw [if_neg declaration] at declares ⊢
        rw [if_neg declaration, if_neg (declares rfl)]

/-- The items of a tag bind the prefixes that they declare, except for `xml`. -/
theorem Item.uri?_bindings_eq_none_iff {items : List Item} {p : String} (notXml : p ≠ xmlPrefix) :
    Scope.uri? (bindings items) p = none ↔ ∀ i ∈ items, i.name.declaredPrefix? ≠ some p := by
  rw [Scope.uri?, Option.map_eq_none_iff, List.find?_eq_none]
  constructor
  · intro absent i inItems prefixed
    have member : ⟨p, i.value⟩ ∈ bindings items :=
      List.mem_filterMap.mpr ⟨i, inItems, binding?_of_declaredPrefix prefixed notXml⟩
    exact absent _ member (decide_eq_true rfl)
  · intro absent b member
    obtain ⟨i, inItems, made⟩ := List.mem_filterMap.mp member
    obtain ⟨q, named, rfl⟩ := Option.map_eq_some_iff.mp made
    have prefixed := (Option.filter_eq_some_iff.mp named).1
    intro same
    rw [decide_eq_true_eq] at same
    subst same
    exact absent i inItems prefixed

/-- An element with a known tag, read as the items of the tag say. -/
structure Element.Known (outer : Scope) (tag : StartTag) (items : List Item) (e : Element) :
    Prop where
  known : e.tag = some tag
  names : tag.Names tag.name items
  made : e.MadeOf outer tag.name items
  same : ∀ raw ∈ tag.attributes, raw.declaredPrefix? = raw.name.declaredPrefix?

namespace Element

variable {outer : Scope} {e : Element} {tag : StartTag} {items : List Item}

/-- A known tag is the one that the element stems from. -/
theorem Stems.of_known (stems : e.Stems outer) (known : e.tag = some tag) :
    ∃ items, tag.Names tag.name items ∧ e.MadeOf outer tag.name items := by
  obtain ⟨spelled, name, items, names, made, unknown | same⟩ := stems
  · rw [known] at unknown
    cases unknown
  · rw [known] at same
    cases same
    obtain rfl := names.name
    exact ⟨items, names, made⟩

theorem Stems.known (stems : e.Stems outer) (known : e.tag = some tag)
    (declares : ∀ raw ∈ tag.plain, raw.name.localName ≠ xmlnsPrefix) :
    ∃ items, e.Known outer tag items := by
  obtain ⟨items, names, made⟩ := stems.of_known known
  refine ⟨items, known, names, made, fun raw member => ?_⟩
  apply RawAttribute.declaredPrefix?_eq
  intro plain
  refine declares raw (List.mem_filter.mpr ⟨member, ?_⟩)
  rw [RawAttribute.isDeclaration, plain]
  rfl

/-- What a known tag declares is in scope in the element, except for `xml`. -/
theorem Stems.uri?_ne_none (stems : e.Stems outer) (known : e.tag = some tag) {raw : RawAttribute}
    (member : raw ∈ tag.attributes) {p : String} (declared : raw.declaredPrefix? = some p)
    (notXml : p ≠ xmlPrefix) : e.scope.uri? p ≠ none := by
  obtain ⟨items, names, made⟩ := stems.of_known known
  have named : raw.name ∈ items.map (·.name) := by
    rw [← names.items]
    exact List.mem_map_of_mem member
  obtain ⟨i, inItems, same⟩ := List.mem_map.mp named
  -- What is a declaration to the reader of the tag is always one to the tree.
  have prefixed : i.name.declaredPrefix? = some p := by
    rw [same, ← RawAttribute.declaredPrefix?_eq fun plain => ?_, declared]
    rw [declared] at plain
    cases plain
  rw [made.scope, Scope.uri?_extend, Ne, Option.or_eq_none_iff]
  rintro ⟨unbound, -⟩
  exact (Item.uri?_bindings_eq_none_iff notXml).mp unbound i inItems prefixed

theorem Known.plain (known : e.Known outer tag items) :
    tag.plain.map RawAttribute.name = (Item.plain items).map (·.name) := calc
  tag.plain.map RawAttribute.name =
      (tag.attributes.filter (·.name.declaredPrefix?.isNone)).map RawAttribute.name := by
    refine congrArg (List.map _) (List.filter_congr fun raw member => ?_)
    rw [RawAttribute.isDeclaration, known.same raw member]
    cases raw.name.declaredPrefix? <;> rfl
  _ = (tag.attributes.map RawAttribute.name).filter (·.declaredPrefix?.isNone) := by
    rw [List.filter_map]
    rfl
  _ = (items.map (·.name)).filter (·.declaredPrefix?.isNone) := by
    rw [known.names.items]
  _ = (Item.plain items).map (·.name) := by
    rw [List.filter_map]
    rfl

/-- The attributes that are spelled on the tag are those of the tree. -/
theorem Known.shows (known : e.Known outer tag items) : e.Shows tag := by
  refine ⟨known.known, ?_⟩
  have names := congrArg (List.map QName.localName) known.plain
  rw [List.map_map, List.map_map] at names
  rw [known.made.attributes, List.map_map]
  exact names

/-- The prefixes that a tag declares are those that its items bind. -/
theorem Known.declares_iff (known : e.Known outer tag items) {p : String} (notXml : p ≠ xmlPrefix) :
    tag.declares p = false ↔ Scope.uri? (Item.bindings items) p = none := by
  have declared : tag.declares p = items.any (·.name.declaredPrefix? = some p) := calc
    tag.declares p = tag.attributes.any (·.name.declaredPrefix? = some p) := by
      rw [Bool.eq_iff_iff, StartTag.declares, StartTag.declarations, List.any_filterMap]
      simp only [List.any_eq_true]
      refine exists_congr fun raw => and_congr_right fun member => ?_
      rw [known.same raw member]
      cases raw.name.declaredPrefix? <;> simp
    _ = (tag.attributes.map RawAttribute.name).any (·.declaredPrefix? = some p) := by
      rw [List.any_map]
      rfl
    _ = items.any (·.name.declaredPrefix? = some p) := by
      rw [known.names.items, List.any_map]
      rfl
  rw [declared, Item.uri?_bindings_eq_none_iff notXml, List.any_eq_false]
  simp only [decide_eq_true_eq]

/-- The last declaration of a prefix on a known tag tells what the tree has in scope. -/
theorem Known.uri?_of_last? (known : e.Known outer tag items) {p : String} {b : Binding}
    (last : Binding.last? (Spelling.of outer e).declarations p = some b) :
    b.uri = (e.scope.uri? p).getD "" := by
  obtain ⟨declared, rfl⟩ := Binding.of_last? last
  rw [known.shows.declarations_eq] at declared
  obtain ⟨⟨q, raw⟩, -, rfl⟩ := List.mem_map.mp declared
  rfl

end Element

/-! ## Unknown tags -/

namespace Spelling

variable {outer own : Scope}

/-- The changes between two scopes bind a prefix as the inner one does. -/
theorem uri_of_mem_scopeChanges (distinct : own.Pairwise (·.nsPrefix ≠ ·.nsPrefix)) {b : Binding}
    (changed : b ∈ scopeChanges outer own) : b.uri = (own.uri? b.nsPrefix).getD "" := by
  rcases List.mem_append.mp changed with new | gone
  · rw [Scope.uri?, Binding.find?_of_distinct distinct (List.mem_filter.mp new).1]
    rfl
  · -- The default namespace is gone: it is bound to nothing, or to the empty URI.
    split at gone
    · rename_i undeclared
      obtain rfl := List.mem_singleton.mp gone
      rw [Bool.and_eq_true, Bool.not_eq_true', List.any_eq_false] at undeclared
      cases found : own.uri? "" with
      | none => rfl
      | some uri =>
        have absent := undeclared.2 _ (Scope.mem_of_uri? found)
        by_cases empty : uri = ""
        · exact empty.symm
        · exact absurd (by simp [empty]) absent
    · cases gone

/-- A prefix that does not change is bound alike in both scopes. -/
theorem uri?_of_unchanged (outerDistinct : outer.Pairwise (·.nsPrefix ≠ ·.nsPrefix))
    {p : String} (kept : own.uri? p = none → outer.uri? p = none)
    (unchanged : ∀ b ∈ scopeChanges outer own, b.nsPrefix ≠ p) : own.uri? p = outer.uri? p := by
  cases found : own.uri? p with
  | none => exact (kept found).symm
  | some uri =>
    have member := Scope.mem_of_uri? found
    have old : outer.contains ⟨p, uri⟩ = true := by
      cases new : outer.contains ⟨p, uri⟩ with
      | true => rfl
      | false =>
        refine absurd rfl (unchanged ⟨p, uri⟩ (List.mem_append_left _ ?_))
        exact List.mem_filter.mpr ⟨member, by rw [new]; rfl⟩
    have inOuter : ⟨p, uri⟩ ∈ outer := List.contains_iff_mem.mp old
    have listed := Binding.find?_of_distinct outerDistinct inOuter
    rw [Scope.uri?, listed]
    rfl

end Spelling

/-! ## What is in scope -/

/-- The declarations of an element take no prefix back if the bindings of the tree do not. -/
theorem Element.Stems.keepsPrefixes {outer : Scope} {e : Element} (stems : e.Stems outer)
    (bound : ∀ b ∈ e.scope, b.uri = "" → b.nsPrefix = "") :
    (Spelling.of outer e).KeepsPrefixes := by
  intro b declared empty
  simp only [Spelling.of, Spelling.declarationsOf] at declared
  cases known : e.tag with
  | some tag =>
    rw [known] at declared
    obtain ⟨⟨q, value⟩, onTag, rfl⟩ := List.mem_map.mp declared
    obtain ⟨raw, member, made⟩ := List.mem_filterMap.mp onTag
    obtain ⟨p, prefixed, same⟩ := Option.map_eq_some_iff.mp made
    cases same
    by_cases xml : q = xmlPrefix
    · exact .inr xml
    · -- The tree binds the prefix, so that the URI is that of a binding.
      obtain ⟨uri, found⟩ :=
        Option.ne_none_iff_exists'.mp (stems.uri?_ne_none known member prefixed xml)
      dsimp only at empty
      rw [found, Option.getD_some] at empty
      exact .inl (bound ⟨q, uri⟩ (Scope.mem_of_uri? found) empty)
  | none =>
    rw [known] at declared
    rcases List.mem_append.mp declared with new | gone
    · exact .inl (bound b (List.mem_filter.mp new).1 empty)
    · -- Only the default namespace can be gone.
      split at gone
      · obtain rfl := List.mem_singleton.mp gone
        exact .inl rfl
      · cases gone

/-- One element: its declarations turn what is in scope around it into what is in scope in it. -/
theorem Element.Stems.uri?_eq {outer : Scope} {e : Element} (stems : e.Stems outer)
    (regular : e.Regular outer) {p : String} (notXml : p ≠ xmlPrefix) :
    (match Binding.last? (Spelling.of outer e).declarations p with
      | some b => if b.uri = "" then none else some b.uri
      | none => (outer.uri? p).filter (· ≠ "")) = (e.scope.uri? p).filter (· ≠ "") := by
  have shown {b : Binding} (same : b.uri = (e.scope.uri? p).getD "") :
      (if b.uri = "" then none else some b.uri) = (e.scope.uri? p).filter (· ≠ "") := by
    rw [same]
    cases e.scope.uri? p with
    | none => rfl
    | some uri => by_cases empty : uri = "" <;> simp [Option.filter, empty]
  cases tag : e.tag with
  | some tag =>
    obtain ⟨items, known⟩ := stems.known tag (regular.declares _ tag)
    cases last : Binding.last? (Spelling.of outer e).declarations p with
    | some b => exact shown (known.uri?_of_last? last)
    | none =>
      rw [known.shows.last?_eq_none_iff, known.declares_iff notXml] at last
      rw [known.made.scope, Scope.uri?_extend, last, Option.none_or]
  | none =>
    obtain ⟨outerDistinct, distinct⟩ := regular.distinct tag
    have declarations :
        (Spelling.of outer e).declarations = Spelling.scopeChanges outer e.scope := by
      simp only [Spelling.of, Spelling.declarationsOf]
      rw [tag]
    rw [declarations]
    cases last : Binding.last? (Spelling.scopeChanges outer e.scope) p with
    | some b =>
      obtain ⟨changed, rfl⟩ := Binding.of_last? last
      exact shown (Spelling.uri_of_mem_scopeChanges distinct changed)
    | none =>
      have unchanged : ∀ b ∈ Spelling.scopeChanges outer e.scope, b.nsPrefix ≠ p := by
        intro b changed same
        refine List.find?_eq_none.mp last b (List.mem_reverse.mpr changed) ?_
        rw [decide_eq_true_eq]
        exact same
      have kept : e.scope.uri? p = none → outer.uri? p = none := by
        obtain ⟨_, _, _, _, made, _⟩ := stems
        rw [made.scope, Scope.uri?_extend]
        intro nothing
        exact (Option.or_eq_none_iff.mp nothing).2
      rw [Spelling.uri?_of_unchanged outerDistinct kept unchanged]

theorem Document.stems_at {d : Document} (stems : d.content.Stems []) {loc : Location}
    (member : loc ∈ d.locations) {e : Element} (here : loc.element? = some e) :
    e.Stems loc.outerScope := by
  have top : d.content.Stems (Ancestor.scope []) := stems
  exact top.allFrom loc member e here

/-- What the declarations of the elements bring into scope is what the tree has in scope. -/
theorem Ancestor.inScope?_eq {d : Document} (stems : d.content.Stems []) (regular : d.Regular)
    {p : String} (notXml : p ≠ xmlPrefix) {chain : List Ancestor}
    (stands : Stands d.locations chain) :
    inScope? chain p = ((scope chain).uri? p).filter (· ≠ "") := by
  induction chain with
  | nil => rfl
  | cons a above ih =>
    obtain ⟨⟨loc, member, here, -, rfl⟩, standsAbove⟩ := stands
    have stems := Document.stems_at stems member here
    have regular := regular loc member _ here
    simp only [inScope?]
    rw [if_neg notXml, ih standsAbove]
    exact stems.uri?_eq regular notXml

end CanonicalXml
