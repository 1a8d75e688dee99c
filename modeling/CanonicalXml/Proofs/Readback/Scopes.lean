import CanonicalXml.Proofs.NamespaceReader
import CanonicalXml.Proofs.Readback.Views
import CanonicalXml.Proofs.Spelled.Forms

/-! # The scopes of what is read back

A reader of the written tags builds a scope of its own.  It is not that of the source, but every
name that is written has the same namespace in both.

* `Scope.uri?_extend` — what declarations do to a scope.
* `Ancestor.mem_scope_of_inScope?` — bindings in scope are bindings of an element.
* `Stage` — the state of a walk beside that of the reader.
* `Stage.uri?_eq` — the reader gives an attribute its namespace.
-/

namespace CanonicalXml

/-! ## Scopes -/

namespace Scope

theorem uri?_append (scope : Scope) (b : Binding) (p : String) :
    uri? (scope ++ [b]) p = (uri? scope p).or (if b.nsPrefix = p then some b.uri else none) := by
  simp only [uri?]
  rw [List.find?_append]
  cases scope.find? (·.nsPrefix = p) with
  | some found => rfl
  | none => by_cases same : b.nsPrefix = p <;> simp [same]

theorem uri?_merge (seen outer : Scope) (p : String) :
    (merge seen outer).uri? p = (seen.uri? p).or (outer.uri? p) := by
  simp only [merge]
  induction outer generalizing seen with
  | nil => simp [uri?]
  | cons b outer ih =>
    have cons : uri? (b :: outer) p = if b.nsPrefix = p then some b.uri else uri? outer p := by
      simp only [uri?]
      by_cases same : b.nsPrefix = p <;> simp [same]
    rw [List.foldl_cons, ih, cons]
    split
    · rename_i listed
      by_cases same : b.nsPrefix = p
      · obtain ⟨c, inSeen, equal⟩ := List.any_eq_true.mp listed
        have found : (uri? seen p).isSome := by
          simp only [uri?]
          rw [Option.isSome_map, List.find?_isSome]
          exact ⟨c, inSeen, by simpa [same] using equal⟩
        obtain ⟨u, found⟩ := Option.isSome_iff_exists.mp found
        rw [found]
        rfl
      · rw [if_neg same]
    · rw [uri?_append]
      by_cases same : b.nsPrefix = p
      · rw [if_pos same, if_pos same, Option.or_assoc]
        rfl
      · rw [if_neg same, if_neg same, Option.or_none]

theorem uri?_extend (own outer : Scope) (p : String) :
    (extend own outer).uri? p = (own.uri? p).or (outer.uri? p) := by
  simp only [extend]
  split
  · rename_i empty
    rw [List.isEmpty_iff.mp empty]
    rfl
  · exact uri?_merge own outer p

end Scope

/-! ## Bindings in scope -/

namespace Ancestor

theorem mem_scope_of_last? {a : Ancestor} {above : List Ancestor} {p : String} {b : Binding}
    (last : Binding.last? (a.spelling above).declarations p = some b) (nonempty : b.uri ≠ "") :
    ⟨p, b.uri⟩ ∈ a.element.scope := by
  obtain ⟨declared, rfl⟩ := Binding.of_last? last
  simp only [Ancestor.spelling, Spelling.of, Spelling.declarationsOf] at declared
  split at declared
  · obtain ⟨⟨q, raw⟩, -, rfl⟩ := List.mem_map.mp declared
    dsimp only at nonempty ⊢
    cases bound : a.element.scope.uri? q with
    | none =>
      rw [bound] at nonempty
      exact absurd rfl nonempty
    | some u => exact Scope.mem_of_uri? bound
  · simp only [Spelling.scopeChanges] at declared
    rcases List.mem_append.mp declared with own | undeclared
    · exact (List.mem_filter.mp own).1
    · split at undeclared
      · rw [List.mem_singleton.mp undeclared] at nonempty
        exact absurd rfl nonempty
      · cases undeclared

/-- What is in scope is a binding of one of the elements. -/
theorem mem_scope_of_inScope? {chain : List Ancestor} {p u : String}
    (bound : inScope? chain p = some u) : ∃ a ∈ chain, ⟨p, u⟩ ∈ a.element.scope := by
  induction chain with
  | nil => cases bound
  | cons a above ih =>
    simp only [inScope?] at bound
    split at bound
    · cases bound
    · split at bound
      · rename_i b last
        split at bound
        · cases bound
        · rename_i nonempty
          cases bound
          exact ⟨a, List.mem_cons_self, mem_scope_of_last? last nonempty⟩
      · obtain ⟨c, member, found⟩ := ih bound
        exact ⟨c, List.mem_cons_of_mem a member, found⟩

end Ancestor

/-- A prefix that has passed its check can be written. -/
theorem NamespaceAxis.InScopeAt.validPrefix {chain : List Ancestor} {axis : NamespaceAxis}
    (agrees : InScopeAt chain axis) (sound : ∀ a ∈ chain, a.element.Sound) {p : String}
    (checked : p = "" ∨ axis.uri? p ≠ none) : p = "" ∨ Markup.NcName p := by
  rcases checked with default | bound
  · exact .inl default
  · by_cases xml : p = xmlPrefix
    · subst xml
      exact .inr (by decide)
    · obtain ⟨u, found⟩ := Option.ne_none_iff_exists'.mp bound
      simp only [NamespaceAxis.uri?] at found
      rw [if_neg xml, agrees] at found
      obtain ⟨a, member, bound⟩ := Ancestor.mem_scope_of_inScope? found
      exact ((sound a member).scope _ bound).nsPrefix

/-! ## Stages -/

/-- What the axis shows, by the scope that a reader has made of the open tags. -/
theorem Reader.Follows.shown_eq {tags : Tags} {scope : Scope} {chain : List Ancestor}
    {axis : NamespaceAxis} (follows : Follows tags chain axis)
    (shows : ∀ p, scope.uri? p = declared? tags p) (p : String) :
    axis.shown p = (scope.uri? p).filter (· ≠ "") := by
  rw [shows]
  exact follows.shown p

/-- The state of a walk inside of some elements, beside the open tags that a reader has seen and
the scope that it has made of them. -/
structure Stage (tags : Reader.Tags) (scope : Scope) (chain : List Ancestor)
    (axis : NamespaceAxis) : Prop where
  follows : Reader.Follows tags chain axis
  shows : ∀ p, scope.uri? p = Reader.declared? tags p
  sound : ∀ a ∈ chain, a.element.Sound
  admitted : ∀ a ∈ chain, a.element.Admitted

namespace Stage

open NamespaceAxis

variable {r : Request} {tags : Reader.Tags} {scope : Scope} {a : Ancestor} {above : List Ancestor}
  {axis : NamespaceAxis} {p u : String}

theorem seed {chain : List Ancestor} (sound : ∀ a ∈ chain, a.element.Sound)
    (admitted : ∀ a ∈ chain, a.element.Admitted) : Stage [] [] chain (Walk.seed chain) :=
  ⟨Reader.follows_seed chain, fun _ => rfl, sound, admitted⟩

theorem enter (stage : Stage tags scope above axis) (sound : a.element.Sound)
    (admitted : a.element.Admitted) :
    Stage tags scope (a :: above) (axis.enter (a.spelling above).declarations) :=
  ⟨stage.follows.omit a, stage.shows, List.forall_mem_cons.mpr ⟨sound, stage.sound⟩,
    List.forall_mem_cons.mpr ⟨admitted, stage.admitted⟩⟩

theorem declared?_cons (shows : ∀ p, scope.uri? p = Reader.declared? tags p)
    (declarations : List Binding) (qname p : String) :
    (Scope.extend declarations scope).uri? p =
      Reader.declared? ((qname, declarations) :: tags) p := by
  rw [Scope.uri?_extend, shows]
  rfl

theorem render (stage : Stage tags scope (a :: above) axis)
    (free : r.restrictsNamespaces = false) (qname : String) :
    let rendering := r.declarations axis a.number (a.spelling above)
    Stage ((qname, rendering.1) :: tags) (Scope.extend rendering.1 scope) (a :: above)
      rendering.2 :=
  ⟨stage.follows.render free qname, declared?_cons stage.shows _ qname, stage.sound,
    stage.admitted⟩

/-! ### Bindings -/

theorem of_inScope? {chain : List Ancestor} (stage : Stage tags scope chain axis)
    (bound : Ancestor.inScope? chain p = some u) :
    Binding.Sound ⟨p, u⟩ ∧ ∀ c ∈ u.toList, Chars.isXml c = true := by
  obtain ⟨a, member, found⟩ := Ancestor.mem_scope_of_inScope? bound
  exact ⟨(stage.sound a member).scope _ found, (stage.admitted a member).scope _ found⟩

theorem validPrefix {chain : List Ancestor} (stage : Stage tags scope chain axis)
    (checked : p = "" ∨ axis.uri? p ≠ none) : p = "" ∨ Markup.NcName p :=
  stage.follows.inScope.validPrefix stage.sound checked

theorem validBinding (stage : Stage tags scope (a :: above) axis) {b : Binding}
    (member : b ∈ (r.declarations axis a.number (a.spelling above)).1) :
    Form.ValidBinding b := by
  obtain ⟨p, u⟩ := b
  have due := ((Request.mem_declarations stage.follows.inScope).mp member).2
  rcases (due?_eq_some stage.follows.inScope.bound).mp due with ⟨sees, -⟩ | ⟨rfl, rfl, -⟩
  · have bound := (seen_eq_some.mp sees).1
    rw [stage.follows.inScope] at bound
    obtain ⟨sound, admitted⟩ := stage.of_inScope? bound
    exact ⟨sound.nsPrefix, sound.notXml, sound.notXmlUri, sound.notXmlnsUri, admitted⟩
  · exact ⟨.inl rfl, by decide, by decide, by decide, nofun⟩

/-- A prefix that the tag uses stands for the same namespace in the scope of the reader. -/
theorem uri?_eq (stage : Stage tags scope (a :: above) axis)
    (free : r.restrictsNamespaces = false) (used : r.uses (a :: above) p = true)
    (checked : p = "" ∨ axis.uri? p ≠ none) (notXml : p ≠ xmlPrefix) :
    ((Scope.extend (r.declarations axis a.number (a.spelling above)).1 scope).uri? p).filter
      (· ≠ "") = Ancestor.inScope? (a :: above) p := by
  have same := stage.follows.resolve?_eq free "" used checked
  simp only [Reader.resolve?, Ancestor.resolve?] at same
  rw [if_neg notXml, if_neg notXml] at same
  rw [declared?_cons stage.shows _ ""]
  exact same

end Stage

end CanonicalXml
