import CanonicalXml.PrefixMap
import CanonicalXml.TagItem
import Mathlib.Data.List.Nodup

/-! # The canonical order of attributes

Attributes are sorted by their expanded names.  Where these are pairwise different, the order is
determined by the attributes alone.

* `WrittenAttribute.precedes_trans`, `precedes_total`, `precedes_antisymm` — the order.
* `WrittenAttribute.sort_eq_of_perm` — the same attributes in another order are sorted alike.
* `WrittenAttribute.sort_of_sorted` — attributes in order stay as they are.
* `WrittenAttribute.filter_sort` — attributes that are alike keep their order.
-/

namespace CanonicalXml.WrittenAttribute

/-- The namespace and the local name, which determine the order. -/
def expandedName (a : WrittenAttribute) : String × String :=
  (a.nsUri, a.localName)

theorem precedes_iff {a b : WrittenAttribute} : a.precedes b = true ↔
    a.nsUri < b.nsUri ∨ a.nsUri = b.nsUri ∧ a.localName ≤ b.localName := by
  simp [precedes]

theorem precedes_trans {a b c : WrittenAttribute} (first : a.precedes b = true)
    (second : b.precedes c = true) : a.precedes c = true := by
  rw [precedes_iff] at *
  rcases first with less | ⟨same, names⟩ <;> rcases second with less' | ⟨same', names'⟩
  · exact .inl (String.lt_trans less less')
  · exact .inl (same' ▸ less)
  · exact .inl (same ▸ less')
  · exact .inr ⟨same.trans same', String.le_trans names names'⟩

theorem precedes_total (a b : WrittenAttribute) : (a.precedes b || b.precedes a) = true := by
  rw [Bool.or_eq_true, precedes_iff, precedes_iff]
  by_cases same : a.nsUri = b.nsUri
  · exact (String.le_total a.localName b.localName).imp (.inr ⟨same, ·⟩) (.inr ⟨same.symm, ·⟩)
  · by_cases less : a.nsUri < b.nsUri
    · exact .inl (.inl less)
    · exact .inr (.inl (PrefixMap.lt_of_not_lt_of_ne less same))

theorem precedes_antisymm {a b : WrittenAttribute} (first : a.precedes b = true)
    (second : b.precedes a = true) : a.expandedName = b.expandedName := by
  rw [precedes_iff] at *
  rcases first with less | ⟨same, names⟩ <;> rcases second with less' | ⟨same', names'⟩
  · exact absurd (String.lt_trans less less') (String.lt_irrefl _)
  · exact absurd (same' ▸ less) (String.lt_irrefl _)
  · exact absurd (same ▸ less') (String.lt_irrefl _)
  · exact Prod.ext same (String.le_antisymm names names')

theorem sorted_sort (attributes : List WrittenAttribute) :
    (sort attributes).Pairwise fun a b => a.precedes b = true := by
  apply List.pairwise_mergeSort
  · intro a b c
    exact precedes_trans
  · exact precedes_total

theorem sort_of_sorted {attributes : List WrittenAttribute}
    (sorted : attributes.Pairwise fun a b => a.precedes b = true) : sort attributes = attributes :=
  List.mergeSort_of_pairwise sorted

/-- Attributes with pairwise different expanded names are sorted alike, in whatever order they
come. -/
theorem sort_eq_of_perm {attributes₁ attributes₂ : List WrittenAttribute}
    (perm : attributes₁.Perm attributes₂) (distinct : (attributes₁.map expandedName).Nodup) :
    sort attributes₁ = sort attributes₂ := by
  have sameMembers : (sort attributes₁).Perm (sort attributes₂) :=
    (List.mergeSort_perm _ _).trans (perm.trans (List.mergeSort_perm _ _).symm)
  refine List.Perm.eq_of_pairwise ?_ (sorted_sort _) (sorted_sort _) sameMembers
  intro a b inFirst inSecond before after
  have inFirst' := (List.mergeSort_perm _ _).subset (sameMembers.symm.subset inSecond)
  exact List.inj_on_of_nodup_map distinct ((List.mergeSort_perm _ _).subset inFirst) inFirst'
    (precedes_antisymm before after)

/-- Sorting leaves attributes that none of the others precedes in their order. -/
theorem filter_sort {attributes : List WrittenAttribute} {q : WrittenAttribute → Bool}
    (alike : ∀ a b, q a = true → q b = true → a.precedes b = true) :
    (sort attributes).filter q = attributes.filter q := by
  have ordered : (attributes.filter q).Pairwise fun a b => a.precedes b = true := by
    rw [List.pairwise_filter]
    exact List.pairwise_of_forall fun a b => alike a b
  have sublist : (attributes.filter q).Sublist (sort attributes) := by
    apply List.sublist_mergeSort _ precedes_total ordered List.filter_sublist
    intro a b c
    exact precedes_trans
  have kept := sublist.filter q
  rw [List.filter_filter] at kept
  simp only [Bool.and_self] at kept
  exact (kept.eq_of_length ((List.mergeSort_perm _ _).filter q).length_eq.symm).symm

end CanonicalXml.WrittenAttribute
