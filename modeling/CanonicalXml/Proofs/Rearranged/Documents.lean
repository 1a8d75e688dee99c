import CanonicalXml.Proofs.Comparison.Declarations
import CanonicalXml.Proofs.Comparison.Walks
import CanonicalXml.Proofs.PlaceNumbers
import CanonicalXml.Proofs.Rearranged.Attributes

/-! # Documents with rearranged start tags

Documents that differ only in the order of what is on their start tags, and in declarations that
repeat what is in scope, have the same canonical forms.

* `Content.Rearranged`, `Document.Rearranged` — documents that differ in nothing else.
* `Location.Rearranged` — places of two such documents with the same number.
* `Walk.startTag_rearranged`, `Walk.simulation_rearranged` — one step of two walks.
* `Input.Corresponding` — the same input, taken from two documents.
* `Mode.rearranged_tags` — what this says about canonical forms.
-/

namespace CanonicalXml

/-! ## Rearranged documents -/

/-- The same leaves, and elements with rearranged start tags, in the same order.  The content
stands inside of these elements, and its first node has this number. -/
def Content.Rearranged (number : Nat) (above₁ above₂ : List Ancestor) : Content → Content → Prop
  | nil, nil => True
  | leaf l₁ next₁, leaf l₂ next₂ =>
    l₁ = l₂ ∧ Rearranged (number + 1) above₁ above₂ next₁ next₂
  | element e₁ inner₁ next₁, element e₂ inner₂ next₂ =>
    (∃ tag₁ tag₂, Element.Rearranged above₁ above₂ tag₁ tag₂ e₁ e₂) ∧
      Rearranged (number + 1) (⟨number, e₁⟩ :: above₁) (⟨number, e₂⟩ :: above₂) inner₁ inner₂ ∧
      Rearranged (number + inner₁.size + 1) above₁ above₂ next₁ next₂
  | _, _ => False

def Document.Rearranged (d₁ d₂ : Document) : Prop :=
  d₁.content.Rearranged 1 [] [] d₂.content

/-- Elements around two places, with the same attributes and the same namespaces in scope. -/
structure Ancestor.Alike (chain₁ chain₂ : List Ancestor) : Prop where
  twins : List.Forall₂ Twins chain₁ chain₂
  bind : ∀ p, inScope? chain₁ p = inScope? chain₂ p

theorem Ancestor.Alike.cons {above₁ above₂ : List Ancestor} (alike : Alike above₁ above₂)
    {tag₁ tag₂ : StartTag} {e₁ e₂ : Element}
    (rearranged : Element.Rearranged above₁ above₂ tag₁ tag₂ e₁ e₂) (n : Nat) :
    Alike (⟨n, e₁⟩ :: above₁) (⟨n, e₂⟩ :: above₂) where
  twins := .cons ⟨rfl, rearranged.attributes_perm, rearranged.distinct⟩ alike.twins
  bind := fun p => rearranged.inScope?_eq (alike.bind p)

namespace Content

variable {number : Nat} {above₁ above₂ : List Ancestor} {content₁ content₂ : Content}

theorem Rearranged.size_eq (rearranged : Rearranged number above₁ above₂ content₁ content₂) :
    content₁.size = content₂.size := by
  fun_induction Rearranged number above₁ above₂ content₁ content₂ with
  | case1 => rfl
  | case2 number above₁ above₂ l₁ next₁ l₂ next₂ ihNext => rw [size, size, ihNext rearranged.2]
  | case3 number above₁ above₂ e₁ inner₁ next₁ e₂ inner₂ next₂ ihInner ihNext =>
    rw [size, size, ihInner rearranged.2.1, ihNext rearranged.2.2]
  | case4 => cases rearranged

theorem Rearranged.kinds_eq (rearranged : Rearranged number above₁ above₂ content₁ content₂) :
    content₁.kinds = content₂.kinds := by
  fun_induction Rearranged number above₁ above₂ content₁ content₂ with
  | case1 => rfl
  | case2 number above₁ above₂ l₁ next₁ l₂ next₂ ihNext =>
    rw [kinds, kinds, rearranged.1, ihNext rearranged.2]
  | case3 number above₁ above₂ e₁ inner₁ next₁ e₂ inner₂ next₂ _ ihNext =>
    rw [kinds, kinds, ihNext rearranged.2.2]
  | case4 => cases rearranged

end Content

namespace Location

/-- Places with the same number, from which on the documents are rearranged. -/
structure Rearranged (loc₁ loc₂ : Location) : Prop where
  number : loc₁.number = loc₂.number
  before : loc₁.before = loc₂.before
  chains : Ancestor.Alike loc₁.ancestors loc₂.ancestors
  content : loc₁.here.Rearranged loc₁.number loc₁.ancestors loc₂.ancestors loc₂.here

section Contents

variable {number : Nat} {above₁ above₂ : List Ancestor} {before : List NodeKind}
  {content₁ content₂ : Content}

/-- Of two documents that are rearranged, places correspond by their numbers. -/
theorem exists_rearranged (chains : Ancestor.Alike above₁ above₂)
    (rearranged : content₁.Rearranged number above₁ above₂ content₂) :
    ∀ loc₁ ∈ allFrom number above₁ before content₁,
      ∃ loc₂ ∈ allFrom number above₂ before content₂, Rearranged loc₁ loc₂ := by
  intro loc₁ member
  fun_induction Content.Rearranged number above₁ above₂ content₁ content₂ generalizing before with
  | case1 => cases member
  | case2 number above₁ above₂ l₁ next₁ l₂ next₂ ihNext =>
    rcases List.mem_cons.mp member with rfl | member
    · exact ⟨_, List.mem_cons_self, rfl, rfl, chains, rearranged⟩
    · obtain ⟨rfl, rest⟩ := rearranged
      obtain ⟨loc₂, among, found⟩ := ihNext chains rest member
      exact ⟨loc₂, List.mem_cons_of_mem _ among, found⟩
  | case3 number above₁ above₂ e₁ inner₁ next₁ e₂ inner₂ next₂ ihInner ihNext =>
    rcases List.mem_cons.mp member with rfl | member
    · exact ⟨_, List.mem_cons_self, rfl, rfl, chains, rearranged⟩
    obtain ⟨⟨tag₁, tag₂, tags⟩, inner, rest⟩ := rearranged
    rcases List.mem_append.mp member with member | member
    · obtain ⟨loc₂, among, found⟩ := ihInner (chains.cons tags number) inner member
      exact ⟨loc₂, List.mem_cons_of_mem _ (List.mem_append_left _ among), found⟩
    · obtain ⟨loc₂, among, found⟩ := ihNext chains rest member
      rw [inner.size_eq] at among
      exact ⟨loc₂, List.mem_cons_of_mem _ (List.mem_append_right _ among), found⟩
  | case4 => cases rearranged

/-- Walks through documents that are rearranged come to places that are. -/
theorem parallel_of_rearranged (chains : Ancestor.Alike above₁ above₂)
    (rearranged : content₁.Rearranged number above₁ above₂ content₂) :
    Parallel Rearranged ⟨number, above₁, before, content₁⟩
      ⟨number, above₂, before, content₂⟩ := by
  fun_induction Content.Rearranged number above₁ above₂ content₁ content₂ generalizing before with
  | case1 => exact .nil rfl rfl
  | case2 number above₁ above₂ l₁ next₁ l₂ next₂ ihNext =>
    refine .leaf rfl rfl ⟨rfl, rfl, chains, rearranged⟩ ?_
    obtain ⟨rfl, rest⟩ := rearranged
    exact ihNext chains rest
  | case3 number above₁ above₂ e₁ inner₁ next₁ e₂ inner₂ next₂ ihInner ihNext =>
    refine .element rfl rfl ⟨rfl, rfl, chains, rearranged⟩ ?_ ?_
    · obtain ⟨⟨tag₁, tag₂, tags⟩, inner, -⟩ := rearranged
      exact ihInner (chains.cons tags number) inner
    · obtain ⟨-, inner, rest⟩ := rearranged
      show Parallel Rearranged _ ⟨number + inner₂.size + 1, above₂, .element :: before, next₂⟩
      rw [← inner.size_eq]
      exact ihNext chains rest
  | case4 => cases rearranged

end Contents

namespace Rearranged

variable {loc₁ loc₂ : Location}

theorem isTop_eq (rearranged : Rearranged loc₁ loc₂) : loc₁.isTop = loc₂.isTop := by
  obtain ⟨number₁, ancestors₁, before₁, here₁⟩ := loc₁
  obtain ⟨number₂, ancestors₂, before₂, here₂⟩ := loc₂
  cases rearranged.chains.twins with
  | nil => rfl
  | cons here above => rfl

theorem parallel (rearranged : Rearranged loc₁ loc₂) : Parallel Rearranged loc₁ loc₂ := by
  obtain ⟨number₁, ancestors₁, before₁, here₁⟩ := loc₁
  obtain ⟨number₂, ancestors₂, before₂, here₂⟩ := loc₂
  obtain ⟨number, before, chains, content⟩ := rearranged
  dsimp only at number before
  subst number before
  exact parallel_of_rearranged chains content

theorem isOutput_eq (rearranged : Rearranged loc₁ loc₂) (r : Request) (kind : NodeKind) :
    r.isOutput loc₁ kind = r.isOutput loc₂ kind := by
  have run : Request.run loc₁ kind = Request.run loc₂ kind := by
    simp only [Request.run]
    rw [rearranged.number, rearranged.before, rearranged.content.kinds_eq]
  simp only [Request.isOutput]
  rw [run, rearranged.number]

theorem writeSeparated_eq (rearranged : Rearranged loc₁ loc₂) {l₁ l₂ : Leaf}
    {next₁ next₂ : Content} (here₁ : loc₁.here = .leaf l₁ next₁)
    (here₂ : loc₂.here = .leaf l₂ next₂) :
    l₁ = l₂ ∧ loc₁.writeSeparated l₁ = loc₂.writeSeparated l₁ := by
  have content := rearranged.content
  rw [here₁, here₂] at content
  obtain ⟨same, rest⟩ := content
  have after : loc₁.after.hasElement = loc₂.after.hasElement := by
    simp only [Location.after, next, Content.hasElement]
    simp only [here₁, here₂]
    rw [rest.kinds_eq]
  have follows : loc₁.followsRoot = loc₂.followsRoot := by
    simp only [followsRoot]
    rw [rearranged.isTop_eq, rearranged.before]
  have precedes : loc₁.precedesRoot = loc₂.precedesRoot := by
    simp only [precedesRoot]
    rw [rearranged.isTop_eq, after]
  refine ⟨same, ?_⟩
  simp only [writeSeparated]
  rw [follows, precedes]

end Rearranged

end Location

/-! ## Walks -/

namespace Walk

open Transcript (Matches)
open NamespaceAxis

theorem bareDeclarations_rearranged {axis₁ axis₂ : NamespaceAxis}
    (bind : ∀ p, axis₁.inScope.get? p = axis₂.inScope.get? p)
    (rendered : axis₁.rendered = axis₂.rendered) (r : Request) (number : Nat) :
    r.bareDeclarations axis₁ number = r.bareDeclarations axis₂ number := by
  have pending : ∀ visible, axis₁.pending visible = axis₂.pending visible := by
    intro visible
    refine PrefixMap.ext_list sorted_pending sorted_pending ?_
    rintro ⟨p, u⟩
    rw [mem_pending, mem_pending, due?_congr (bind p) rendered]
  simp only [Request.bareDeclarations, pending]

theorem startTag_rearranged {r : Request} (unlimited : r.limits = none) {loc₁ loc₂ : Location}
    {tag₁ tag₂ : StartTag} {e₁ e₂ : Element} {parentOutput : Bool} {w₁ w₂ : Walk}
    (rearranged : loc₁.Rearranged loc₂)
    (tags : Element.Rearranged loc₁.ancestors loc₂.ancestors tag₁ tag₂ e₁ e₂)
    (inStep : InStep loc₁.ancestors w₁.axis loc₂.ancestors w₂.axis)
    (comments : w₁.comments = w₂.comments) :
    Matches (fun _ _ => True)
      (fun v₁ v₂ => InStep (⟨loc₁.number, e₁⟩ :: loc₁.ancestors) v₁.1.axis
          (⟨loc₂.number, e₂⟩ :: loc₂.ancestors) v₂.1.axis ∧
        v₁.1.comments = v₂.1.comments ∧ v₁.2 = v₂.2)
      (w₁.startTag r loc₁ e₁ parentOutput) (w₂.startTag r loc₂ e₂ parentOutput) := by
  have name : (loc₁.spelling e₁).name = (loc₂.spelling e₂).name := tags.name_eq
  have entered : InStep (⟨loc₁.number, e₁⟩ :: loc₁.ancestors)
      (w₁.axis.enter (loc₁.spelling e₁).declarations) (⟨loc₂.number, e₂⟩ :: loc₂.ancestors)
      (w₂.axis.enter (loc₂.spelling e₂).declarations) :=
    inStep.enter ⟨loc₁.number, e₁⟩ ⟨loc₂.number, e₂⟩
  have bindInside : ∀ p, Ancestor.inScope? (⟨loc₁.number, e₁⟩ :: loc₁.ancestors) p =
      Ancestor.inScope? (⟨loc₂.number, e₂⟩ :: loc₂.ancestors) p :=
    fun p => tags.inScope?_eq (rearranged.chains.bind p)
  have bind : ∀ p, (w₁.axis.enter (loc₁.spelling e₁).declarations).inScope.get? p =
      (w₂.axis.enter (loc₂.spelling e₂).declarations).inScope.get? p := by
    intro p
    rw [entered.agrees₁, entered.agrees₂, bindInside]
  refine startTag_matches (InStep _ · _ ·) comments name
    (rearranged.isOutput_eq r .element) ?_ ?_ ?_ ?_
  · intro qname
    rw [unlimited]
    exact .ok rfl
  · rw [unlimited]
    exact .ok rfl
  · intro _
    refine ⟨?_, entered⟩
    rw [rearranged.number]
    exact bareDeclarations_rearranged bind entered.rendered r loc₂.number
  · intro _
    dsimp only
    have forced : r.forcesDefault (⟨loc₁.number, e₁⟩ :: loc₁.ancestors) =
        r.forcesDefault (⟨loc₂.number, e₂⟩ :: loc₂.ancestors) := by
      have ofTag : (Ancestor.spelling ⟨loc₁.number, e₁⟩ loc₁.ancestors).name =
          (Ancestor.spelling ⟨loc₂.number, e₂⟩ loc₂.ancestors).name := name
      simp only [Request.forcesDefault]
      rw [ofTag, rearranged.number]
    obtain ⟨declared, after⟩ := entered.declarations rfl
      (congrArg r.isVisible rearranged.number) forced
      (Request.settles_rearranged rearranged.number tags) fun p _ => bindInside p
    refine ⟨?_, ?_, declared, after⟩
    · rw [name, checkPrefix_congr (bind _)]
      exact .refl (fun _ => trivial) _
    · exact Request.writtenAttributes_rearranged parentOutput tags rearranged.chains.twins bind

theorem simulation_rearranged {r : Request} (unlimited : r.limits = none) :
    Simulation r r (fun _ _ => True) Location.Rearranged InStep where
  reflexive := fun _ => trivial
  limits := rfl
  leaf := by
    intro loc₁ loc₂ l₁ l₂ rest₁ rest₂ rearranged here₁ here₂
    obtain ⟨same, text⟩ := rearranged.writeSeparated_eq here₁ here₂
    exact ⟨same, rearranged.isOutput_eq r _, rearranged.isTop_eq, text⟩
  element := by
    intro loc₁ loc₂ e₁ e₂ inner₁ inner₂ rest₁ rest₂ parentOutput w₁ w₂ rearranged here₁ here₂
      inStep comments
    have content := rearranged.content
    rw [here₁, here₂] at content
    obtain ⟨⟨tag₁, tag₂, tags⟩, -, -⟩ := content
    exact startTag_rearranged unlimited rearranged tags inStep comments

end Walk

/-- The same input, taken from two documents. -/
inductive Input.Corresponding (d₁ d₂ : Document) : Input → Input → Prop where
  | document : Corresponding d₁ d₂ (.document d₁) (.document d₂)
  | root : Corresponding d₁ d₂ (.subtree (.document d₁.content)) (.subtree (.document d₂.content))
  | node {loc₁ loc₂ : Location} (member₁ : loc₁ ∈ d₁.locations) (member₂ : loc₂ ∈ d₂.locations)
      (number : loc₁.number = loc₂.number) :
      Corresponding d₁ d₂ (.subtree (.node loc₁)) (.subtree (.node loc₂))
  | nodeSet (s : NodeSet) : Corresponding d₁ d₂ (.nodeSet d₁ s) (.nodeSet d₂ s)

namespace Walk

open Transcript (Matches)

/-- Walks through corresponding inputs, which make the same request. -/
theorem ofInput_rearranged {d₁ d₂ : Document} (rearranged : d₁.Rearranged d₂)
    {input₁ input₂ : Input} (corresponding : Input.Corresponding d₁ d₂ input₁ input₂)
    (method : Method) {params : Params} (unlimited : params.limits = none) :
    ∃ R, Matches (fun _ _ => True) R (ofInput method input₁ params)
      (ofInput method input₂ params) := by
  have outside : Ancestor.Alike [] [] := ⟨.nil, fun _ => rfl⟩
  have parallel : Location.Parallel Location.Rearranged (.top d₁.content) (.top d₂.content) :=
    Location.parallel_of_rearranged outside rearranged
  have simulation : ∀ input,
      Simulation (.of method input params) (.of method input params) (fun _ _ => True)
        Location.Rearranged InStep :=
    fun input => simulation_rearranged unlimited
  have start := InStep.seed [] []
  cases corresponding with
  | document =>
    rw [ofInput_document, ofInput_document]
    exact ⟨_, (simulation (.document d₁)).siblingsAt parallel start rfl⟩
  | root =>
    rw [ofInput_root, ofInput_root]
    exact ⟨_, (simulation (.subtree (.document d₁.content))).siblingsAt parallel start rfl⟩
  | nodeSet s =>
    rw [ofInput_nodeSet, ofInput_nodeSet]
    exact ⟨_, (simulation (.nodeSet d₁ s)).siblingsAt parallel start rfl⟩
  | @node loc₁ loc₂ member₁ member₂ number =>
    obtain ⟨other, among, found⟩ : ∃ other ∈ d₂.locations, loc₁.Rearranged other :=
      Location.exists_rearranged outside rearranged loc₁ member₁
    obtain rfl := Location.eq_of_number among member₂ (found.number.symm.trans number)
    have request : Request.of method (.subtree (.node loc₁)) params =
        .of method (.subtree (.node other)) params := by
      simp only [Request.of, Request.extentOf, Place.number]
      rw [number]
    rw [ofInput_node, ofInput_node, request]
    exact ⟨_, (simulation (.subtree (.node other))).nodeAt_of_parallel false found.parallel
      (.seed _ _) rfl⟩

end Walk

namespace Mode

/-- The order of what is on start tags, and declarations of what is in scope anyway, do not show
in a canonical form, nor do they decide whether there is one. -/
theorem rearranged_tags {d₁ d₂ : Document} (rearranged : d₁.Rearranged d₂)
    {input₁ input₂ : Input} (corresponding : Input.Corresponding d₁ d₂ input₁ input₂)
    (family : Family) (withComments : Bool) {params : Params} (unlimited : params.limits = none) :
    let run := (canonical family withComments).run
    (run input₁ params).text = (run input₂ params).text ∧
      (run input₁ params).outcome.isOk = (run input₂ params).outcome.isOk := by
  obtain ⟨R, walks⟩ := Walk.ofInput_rearranged rearranged corresponding
    (method family withComments) unlimited
  obtain ⟨text, ends⟩ := run_ends walks
  exact ⟨text, ends.isOk⟩

/-- Two documents with attributes and declarations in other orders.  The second one declares again
what is in scope at its inner element. -/
theorem rearranged_tags_inner :
    let text₁ := "<a xml:lang='en' xmlns='u' xmlns:p='v'><p:c xml:space='s' p:d='3' e='4'/></a>"
    let text₂ := "<a xmlns:p='v' xml:lang='en' xmlns='u'>" ++
      "<p:c p:d='3' xmlns='u' e='4' xmlns:p='v' xml:space='s'/></a>"
    let run := fun loc => (canonical .inclusive true).run (.subtree (.node loc)) {}
    ∃ d₁ d₂ loc₁ loc₂, Document.read text₁ = .ok d₁ ∧ Document.read text₂ = .ok d₂ ∧
      d₁.Rearranged d₂ ∧ loc₁ ∈ d₁.locations ∧ loc₂ ∈ d₂.locations ∧
      loc₁.element? ≠ loc₂.element? ∧
      (run loc₁).outcome.isOk = true ∧ (run loc₁).text = (run loc₂).text ∧
      (run loc₁).outcome.isOk = (run loc₂).outcome.isOk := by
  intro text₁ text₂ run
  let outer₁ : StartTag := ⟨"a", [⟨"xml:lang", "en"⟩, ⟨"xmlns", "u"⟩, ⟨"xmlns:p", "v"⟩]⟩
  let outer₂ : StartTag := ⟨"a", [⟨"xmlns:p", "v"⟩, ⟨"xml:lang", "en"⟩, ⟨"xmlns", "u"⟩]⟩
  let inner₁ : StartTag := ⟨"p:c", [⟨"xml:space", "s"⟩, ⟨"p:d", "3"⟩, ⟨"e", "4"⟩]⟩
  let inner₂ : StartTag := ⟨"p:c", [⟨"p:d", "3"⟩, ⟨"xmlns", "u"⟩, ⟨"e", "4"⟩, ⟨"xmlns:p", "v"⟩,
    ⟨"xml:space", "s"⟩]⟩
  let language : Attribute := ⟨some xmlNamespace, "lang", "en"⟩
  let space : Attribute := ⟨some xmlNamespace, "space", "s"⟩
  let a₁ : Element := ⟨some "u", "a", [language], [⟨"", "u"⟩, ⟨"p", "v"⟩], some outer₁⟩
  let a₂ : Element := ⟨some "u", "a", [language], [⟨"p", "v"⟩, ⟨"", "u"⟩], some outer₂⟩
  let c₁ : Element := ⟨some "v", "c", [space, ⟨some "v", "d", "3"⟩, ⟨none, "e", "4"⟩],
    [⟨"", "u"⟩, ⟨"p", "v"⟩], some inner₁⟩
  let c₂ : Element := ⟨some "v", "c", [⟨some "v", "d", "3"⟩, ⟨none, "e", "4"⟩, space],
    [⟨"", "u"⟩, ⟨"p", "v"⟩], some inner₂⟩
  let d₁ : Document := ⟨text₁, .element a₁ (.element c₁ .nil .nil) .nil⟩
  let d₂ : Document := ⟨text₂, .element a₂ (.element c₂ .nil .nil) .nil⟩
  let loc₁ : Location := ⟨2, [⟨1, a₁⟩], [], .element c₁ .nil .nil⟩
  let loc₂ : Location := ⟨2, [⟨1, a₂⟩], [], .element c₂ .nil .nil⟩
  have parsed₁ : Document.read text₁ = .ok d₁ := by decide +kernel
  have parsed₂ : Document.read text₂ = .ok d₂ := by decide +kernel
  have member₁ : loc₁ ∈ d₁.locations := by decide +kernel
  have member₂ : loc₂ ∈ d₂.locations := by decide +kernel
  have rearranged : d₁.Rearranged d₂ :=
    ⟨⟨outer₁, outer₂, by decide +kernel⟩, ⟨⟨inner₁, inner₂, by decide +kernel⟩, trivial, trivial⟩,
      trivial⟩
  exact ⟨d₁, d₂, loc₁, loc₂, parsed₁, parsed₂, rearranged, member₁, member₂, by decide +kernel,
    by decide +kernel, rearranged_tags rearranged (.node member₁ member₂ rfl) .inclusive true rfl⟩

/-- An element that is closed by the text of an entity has no start tag that is read.  It takes
the first prefix in scope that fits, and which one that is depends on the order of the
declarations. -/
theorem rearranged_tags_unread :
    let text := fun declarations : String =>
      "<!DOCTYPE r [<!ENTITY e \"<y/></p:x>\">]><r" ++ declarations ++ "><p:x>&e;</r>"
    let run := fun d => (canonical .inclusive false).run (.document d) {}
    ∃ d₁ d₂, Document.read (text " xmlns:p=\"u\" xmlns:q=\"u\"") = .ok d₁ ∧
      Document.read (text " xmlns:q=\"u\" xmlns:p=\"u\"") = .ok d₂ ∧
      (run d₁).result = .ok "<r xmlns:p=\"u\" xmlns:q=\"u\"><p:x><y></y></p:x></r>" ∧
      (run d₂).result = .ok "<r xmlns:p=\"u\" xmlns:q=\"u\"><q:x><y></y></q:x></r>" := by
  intro text run
  let d₁ := (Document.read (text " xmlns:p=\"u\" xmlns:q=\"u\"")).toOption.getD ⟨"", .nil⟩
  let d₂ := (Document.read (text " xmlns:q=\"u\" xmlns:p=\"u\"")).toOption.getD ⟨"", .nil⟩
  refine ⟨d₁, d₂, ?_⟩
  decide +kernel

end Mode

end CanonicalXml
