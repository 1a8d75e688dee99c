import CanonicalXml.Proofs.FixedPoint.Spelling
import CanonicalXml.Proofs.Readback.Content

/-! # Start tags that are written again

Inside of an element that was read from a form is in scope what a reader of the form has seen, and
no more.  So a second walk declares what the first one has declared.

* `Echo` — the state of a walk through what was read, beside that of the reader.
* `Echo.declarations_eq` — the walk declares what stands on the tag.
* `Echo.writtenAttributes_eq` — it writes the attributes of the tag, in their order.
* `Walk.startTag_again` — the walk writes the start tag again.
-/

namespace CanonicalXml

/-- An element with nothing around it takes nothing. -/
theorem Request.inherit_nil (rule : InheritanceRule) (own : List WrittenAttribute) :
    inherit rule [] own = own := by
  cases rule <;>
    simp [inherit, inherited, firstOfEach, inheritedBase, joinBase]

/-- The state of a walk inside of what was read, beside the open tags that a reader has seen and
the scope that it has made of them.  Nothing else is in scope. -/
structure Echo (tags : Reader.Tags) (scope : Scope) (chain : List Ancestor)
    (axis : NamespaceAxis) : Prop where
  follows : Reader.Follows tags chain axis
  shows : ∀ p, scope.uri? p = Reader.declared? tags p
  inScope : ∀ p, Ancestor.inScope? chain p = (scope.uri? p).filter (· ≠ "")
  named : ∀ p, scope.uri? p = some "" → p = ""

namespace Echo

open NamespaceAxis Form

variable {r : Request} {tags : Reader.Tags} {scope : Scope} {chain : List Ancestor}
  {axis : NamespaceAxis} {name : QName} {declarations : List Binding} {attributes : List Item}

theorem start : Echo [] [] [] .start :=
  ⟨Reader.follows_seed [], fun _ => rfl, fun _ => rfl, nofun⟩

/-- Inside of an element is in scope what a reader has seen, its tag included. -/
theorem inScope_enter (echo : Echo tags scope chain axis)
    (valid : ValidTag scope name declarations attributes) (number : Nat) (p : String) :
    Ancestor.inScope? (ancestorOf scope name declarations attributes number :: chain) p =
      ((Scope.extend declarations scope).uri? p).filter (· ≠ "") := by
  have spelled := congrArg Spelling.declarations (spelling_ancestorOf valid number chain)
  have around := echo.inScope p
  simp only [Ancestor.inScope?]
  rw [spelled, Binding.last?_of_distinct valid.distinct, Scope.uri?_extend, Scope.uri?]
  cases found : declarations.find? (·.nsPrefix = p) with
  | none =>
    refine Eq.trans ?_ around
    dsimp only
    split
    · rename_i xml
      rw [xml, Ancestor.inScope?_xml]
    · rfl
  | some b =>
    have picked := List.find?_some found
    have same : b.nsPrefix = p := of_decide_eq_true picked
    have notXml : p ≠ xmlPrefix :=
      same ▸ (valid.declared b (List.mem_of_find?_eq_some found)).notXml
    rw [if_neg notXml, Option.map_some, Option.some_or, Option.filter_some]
    by_cases empty : b.uri = "" <;> simp [empty]

/-- The state after entering an element, before its tag has been read. -/
theorem enter (echo : Echo tags scope chain axis)
    (valid : ValidTag scope name declarations attributes) (number : Nat) :
    Reader.Follows tags (ancestorOf scope name declarations attributes number :: chain)
      (axis.enter declarations) := by
  have follows := echo.follows.omit (ancestorOf scope name declarations attributes number)
  rw [spelling_ancestorOf valid] at follows
  exact follows

/-- What is due inside of an element is what its tag declares. -/
theorem due_iff (echo : Echo tags scope chain axis)
    (valid : ValidTag scope name declarations attributes)
    (canonical : CanonicalTag r.method r.listed scope name declarations attributes)
    (free : r.restrictsNamespaces = false) (number : Nat) (p u : String) :
    (axis.enter declarations).due? (r.isVisible number) false p = some u ↔
      ⟨p, u⟩ ∈ declarations := by
  have inside := echo.enter valid number
  have sees : (axis.enter declarations).seen (r.isVisible number) p =
      ((Scope.extend declarations scope).uri? p).filter (· ≠ "") := by
    rw [Request.seen_eq_visible? inside.inScope, Request.visible?_of_unrestricted free]
    exact echo.inScope_enter valid number p
  have shown : (axis.enter declarations).shown p = (scope.uri? p).filter (· ≠ "") :=
    (shown_enter _ _ p).trans (echo.follows.shown_eq echo.shows p)
  rw [due?_eq_some inside.inScope.bound, sees, shown, Scope.uri?_extend]
  constructor
  · intro due
    -- If the tag says nothing about the prefix, then what is in scope is shown already.
    cases found : Scope.uri? declarations p with
    | none =>
      rw [found, Option.none_or] at due
      rcases due with ⟨seen, notShown⟩ | ⟨-, -, unseen, forced | seen⟩
      · exact absurd seen notShown
      · cases forced
      · exact absurd unseen seen
    | some v =>
      have member := Scope.mem_of_uri? found
      rw [found, Option.some_or] at due
      rcases due with ⟨seen, -⟩ | ⟨rfl, rfl, unseen, -⟩
      · obtain ⟨same, -⟩ := Option.filter_eq_some_iff.mp seen
        cases same
        exact member
      · by_cases empty : v = ""
        · exact empty ▸ member
        · simp [empty] at unseen
  · intro member
    have needed := canonical.needed _ member
    rw [Scope.uri?_of_mem valid.distinct member, Option.some_or]
    by_cases empty : u = ""
    · -- A default namespace is taken back only where there is one.
      have default : p = "" := canonical.keepsPrefixes _ member empty
      subst empty default
      refine .inr ⟨rfl, rfl, rfl, .inr fun unseen => needed ?_⟩
      dsimp only
      rw [← Stage.getD_nonempty, unseen]
      rfl
    · refine .inl ⟨by simp [empty], fun seen => needed ?_⟩
      obtain ⟨same, -⟩ := Option.filter_eq_some_iff.mp seen
      dsimp only
      rw [same]
      rfl

/-- All that the tag declares, the walk has to declare at some time. -/
theorem settles (valid : ValidTag scope name declarations attributes)
    (canonical : CanonicalTag r.method r.listed scope name declarations attributes)
    (whole : r.Whole) (number : Nat) {b : Binding} (member : b ∈ declarations) :
    r.settles (ancestorOf scope name declarations attributes number :: chain) b.nsPrefix =
      true := by
  simp only [Request.settles]
  split
  · rfl
  · rename_i exclusive
    rw [← Request.mem_utilized, Request.utilized, spelling_ancestorOf valid, whole.included]
    rcases canonical.used exclusive b member with name | listed | ⟨prefixed, i, onTag, same⟩
    · simp [name]
    · simp [listed]
    · have spelled : ∃ i ∈ attributes, i.name.nsPrefix = b.nsPrefix := ⟨i, onTag, same⟩
      simp [prefixed, spelled]

theorem declarations_eq (echo : Echo tags scope chain axis)
    (valid : ValidTag scope name declarations attributes)
    (canonical : CanonicalTag r.method r.listed scope name declarations attributes)
    (whole : r.Whole) (calm : r.propagateDefault = false) (number : Nat) :
    (r.declarations (axis.enter declarations) number
      ((ancestorOf scope name declarations attributes number).spelling chain)).1 =
        declarations := by
  have inside := echo.enter valid number
  refine PrefixMap.ext_list (r.sorted_declarations _ _ _) canonical.sorted fun ⟨p, u⟩ => ?_
  have due := echo.due_iff valid canonical whole.free number p u
  refine (Request.mem_declarations inside.inScope).trans ?_
  rw [Request.forcesDefault_of_calm calm, due]
  exact and_iff_right_of_imp (settles valid canonical whole number)

theorem named_extend (echo : Echo tags scope chain axis)
    (keeps : ∀ b ∈ declarations, b.uri = "" → b.nsPrefix = "") (p : String)
    (empty : (Scope.extend declarations scope).uri? p = some "") : p = "" := by
  rw [Scope.uri?_extend] at empty
  cases found : Scope.uri? declarations p with
  | none =>
    rw [found, Option.none_or] at empty
    exact echo.named p empty
  | some v =>
    rw [found, Option.some_or] at empty
    cases empty
    exact keeps _ (Scope.mem_of_uri? found) rfl

/-- A prefix that a reader knows inside of the tag is in scope there. -/
theorem bound (echo : Echo tags scope chain axis)
    (valid : ValidTag scope name declarations attributes)
    (keeps : ∀ b ∈ declarations, b.uri = "" → b.nsPrefix = "") {p : String}
    (known : p = "" ∨ p = xmlPrefix ∨ (Scope.extend declarations scope).uri? p ≠ none) :
    p = "" ∨ (axis.enter declarations).uri? p ≠ none := by
  rcases known with default | xml | known
  · exact .inl default
  · refine .inr ?_
    simp only [uri?]
    rw [if_pos xml]
    exact Option.some_ne_none _
  · refine or_iff_not_imp_left.mpr fun prefixed => ?_
    obtain ⟨u, found⟩ := Option.ne_none_iff_exists'.mp known
    have nonempty : u ≠ "" := fun empty => prefixed (echo.named_extend keeps p (empty ▸ found))
    simp only [uri?]
    split
    · exact Option.some_ne_none _
    · rw [(echo.enter valid 0).inScope p, echo.inScope_enter valid 0 p, found, Option.filter_some]
      simp [nonempty]

/-- The attributes of the tag are written again.  They are in order already. -/
theorem writtenAttributes_eq (echo : Echo tags scope chain axis)
    (valid : ValidTag scope name declarations attributes)
    (canonical : CanonicalTag r.method r.listed scope name declarations attributes)
    (whole : r.Whole) {loc : Location} {parentOutput : Bool}
    (around : parentOutput = true ∨ loc.ancestors = []) :
    r.writtenAttributes (axis.enter declarations) loc
      (elementOf scope name declarations attributes)
      ⟨name, declarations, attributes.map (·.name.nsPrefix)⟩ parentOutput =
    .ok ((attributes.map (own (Scope.extend declarations scope))).map Attribute.written) := by
  have checked : ∀ pair ∈ attributes.map (own (Scope.extend declarations scope)),
      pair.2 = "" ∨ (axis.enter declarations).uri? pair.2 ≠ none := by
    intro pair member
    obtain ⟨i, onTag, rfl⟩ := List.mem_map.mp member
    exact echo.bound valid canonical.keepsPrefixes (valid.attributed i onTag).bound
  have owned : Request.ownAttributes (axis.enter declarations) name.text
      (attributes.map (own (Scope.extend declarations scope))) =
      .ok ((attributes.map (own (Scope.extend declarations scope))).map Attribute.written) :=
    Request.ownAttributes_eq_ok.mpr ⟨rfl, checked⟩
  have zipped : (elementOf scope name declarations attributes).attributes.zip
      (attributes.map (·.name.nsPrefix)) =
      attributes.map (own (Scope.extend declarations scope)) := List.zip_map'
  have ordered : WrittenAttribute.sort
      ((attributes.map (own (Scope.extend declarations scope))).map Attribute.written) =
      (attributes.map (own (Scope.extend declarations scope))).map Attribute.written := by
    refine WrittenAttribute.sort_of_sorted ?_
    rw [List.map_map]
    exact canonical.ordered
  simp only [Request.writtenAttributes]
  rw [whole.included, zipped, owned]
  rcases around with inside | top
  · rw [inside]
    exact congrArg Except.ok ordered
  · rw [top, Request.omittedAncestors]
    simp only [Request.inherit_nil]
    cases parentOutput with
    | true => exact congrArg Except.ok ordered
    | false => exact congrArg Except.ok ordered

end Echo

namespace Walk

open Transcript Form

/-- The start tag of an element is written again, and the walk goes on beside the reader. -/
theorem startTag_again {r : Request} {tags : Reader.Tags} {scope : Scope} {loc : Location}
    {axis : NamespaceAxis} {name : QName} {declarations : List Binding} {attributes : List Item}
    {parentOutput : Bool} (whole : r.Whole) (calm : r.propagateDefault = false)
    (unlimited : r.limits = none) (echo : Echo tags scope loc.ancestors axis)
    (valid : ValidTag scope name declarations attributes)
    (canonical : CanonicalTag r.method r.listed scope name declarations attributes)
    (around : parentOutput = true ∨ loc.ancestors = []) (comments : Nat) :
    ∃ inner : NamespaceAxis,
      (startTag r ⟨axis, comments⟩ loc (elementOf scope name declarations attributes)
        parentOutput).Gives
        [.startTag loc name.text declarations
          ((attributes.map (own (Scope.extend declarations scope))).map Attribute.written)]
        (⟨inner, comments⟩, some name.text) ∧
      Echo ((name.text, declarations) :: tags) (Scope.extend declarations scope)
        (ancestorOf scope name declarations attributes loc.number :: loc.ancestors) inner ∧
      inner.leave = axis := by
  have spelled : loc.spelling (elementOf scope name declarations attributes) =
      ⟨name, declarations, attributes.map (·.name.nsPrefix)⟩ := spelling_elementOf valid _
  have attributed := echo.writtenAttributes_eq valid canonical whole around
  have named : (axis.enter declarations).checkPrefix name.nsPrefix name.text = .ok () :=
    NamespaceAxis.checkPrefix_eq_ok.mpr
      (echo.bound valid canonical.keepsPrefixes (valid.bound.imp_right .inr))
  have output : r.isOutput loc .element = true := whole.isOutput loc .element
  have declared := echo.declarations_eq valid canonical whole calm loc.number
  have follows := (echo.enter valid loc.number).render whole.free name.text
  have leaves : (r.declarations (axis.enter declarations) loc.number
      ⟨name, declarations, attributes.map (·.name.nsPrefix)⟩).2.leave = axis :=
    (leave_declarations (NamespaceAxis.frames_enter_ne_nil _ _) _ _).trans
      (NamespaceAxis.leave_enter _ _)
  rw [spelling_ancestorOf valid] at declared follows
  dsimp only at follows
  cases rendering : r.declarations (axis.enter declarations) loc.number
      ⟨name, declarations, attributes.map (·.name.nsPrefix)⟩ with
  | mk written inner =>
    rw [rendering] at declared follows leaves
    obtain rfl : written = declarations := declared
    refine ⟨inner, ?_, ⟨follows, Stage.declared?_cons echo.shows _ _,
      echo.inScope_enter valid loc.number, echo.named_extend canonical.keepsPrefixes⟩, leaves⟩
    -- All checks succeed, so that nothing is left but the piece.
    unfold startTag
    dsimp only
    rw [spelled, unlimited, output]
    dsimp only
    rw [named, attributed, rendering]
    exact gives_write_pure.mpr ⟨rfl, rfl⟩

end Walk

end CanonicalXml
