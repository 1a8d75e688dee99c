import CanonicalXml.Namespace
/-! # Maps from prefixes to namespaces

A finite map that lists its bindings in the order of their prefixes. The order
is part of the type, so two maps that answer alike are equal.

* `PrefixMap.get?`, `PrefixMap.insert`, `PrefixMap.erase` — the operations, with
  one lemma each on what the map answers afterwards.
* `PrefixMap.ext` — a map is determined by its answers.
-/

namespace CanonicalXml

/-- A finite map from prefixes to namespaces, listed by prefix. -/
structure PrefixMap where
  bindings : List Binding
  sorted : bindings.Pairwise (·.nsPrefix < ·.nsPrefix)

namespace PrefixMap

def empty : PrefixMap := ⟨[], .nil⟩

def single (nsPrefix uri : String) : PrefixMap :=
  ⟨[⟨nsPrefix, uri⟩], .cons (by simp) .nil⟩

/-- Puts a binding in its place, instead of the one that was there. -/
def insertList (nsPrefix uri : String) : List Binding → List Binding
  | [] => [⟨nsPrefix, uri⟩]
  | b :: bs =>
    if nsPrefix < b.nsPrefix then ⟨nsPrefix, uri⟩ :: b :: bs
    else if nsPrefix = b.nsPrefix then ⟨nsPrefix, uri⟩ :: bs
    else b :: insertList nsPrefix uri bs

theorem mem_insertList {nsPrefix uri : String} {bs : List Binding} {b : Binding}
    (h : b ∈ insertList nsPrefix uri bs) : b = ⟨nsPrefix, uri⟩ ∨ b ∈ bs := by
  induction bs with
  | nil => simpa [insertList] using h
  | cons a bs ih =>
    unfold insertList at h
    split at h
    · simpa using h
    · split at h
      · rcases List.mem_cons.mp h with rfl | h
        · exact .inl rfl
        · exact .inr (List.mem_cons_of_mem _ h)
      · rcases List.mem_cons.mp h with rfl | h
        · exact .inr List.mem_cons_self
        · exact (ih h).imp id (List.mem_cons_of_mem _)

theorem lt_of_not_lt_of_ne {a b : String} (h : ¬ a < b) (hne : a ≠ b) : b < a := by
  refine Decidable.byContradiction fun hba => hne ?_
  exact String.le_antisymm (String.not_lt.mp hba) (String.not_lt.mp h)

theorem sorted_insertList {nsPrefix uri : String} {bs : List Binding}
    (h : bs.Pairwise (·.nsPrefix < ·.nsPrefix)) :
    (insertList nsPrefix uri bs).Pairwise (·.nsPrefix < ·.nsPrefix) := by
  induction bs with
  | nil => simp [insertList]
  | cons a bs ih =>
    obtain ⟨ha, hbs⟩ := List.pairwise_cons.mp h
    unfold insertList
    split
    · rename_i hlt
      refine List.pairwise_cons.mpr ⟨fun b hb => ?_, h⟩
      rcases List.mem_cons.mp hb with rfl | hb
      · exact hlt
      · exact String.lt_trans hlt (ha b hb)
    · rename_i hlt
      split
      · rename_i heq
        exact List.pairwise_cons.mpr ⟨fun b hb => heq ▸ ha b hb, hbs⟩
      · rename_i hne
        refine List.pairwise_cons.mpr ⟨fun b hb => ?_, ih hbs⟩
        rcases mem_insertList hb with rfl | hb
        · exact lt_of_not_lt_of_ne hlt hne
        · exact ha b hb

def insert (m : PrefixMap) (nsPrefix uri : String) : PrefixMap :=
  ⟨insertList nsPrefix uri m.bindings, sorted_insertList m.sorted⟩

def erase (m : PrefixMap) (nsPrefix : String) : PrefixMap :=
  ⟨m.bindings.filter (·.nsPrefix ≠ nsPrefix), m.sorted.filter _⟩

/-- The map with the prefix bound to the namespace, or to nothing. -/
def set (m : PrefixMap) (nsPrefix : String) : Option String → PrefixMap
  | some uri => m.insert nsPrefix uri
  | none => m.erase nsPrefix

def get? (m : PrefixMap) (nsPrefix : String) : Option String :=
  (m.bindings.find? (·.nsPrefix = nsPrefix)).map (·.uri)

def prefixes (m : PrefixMap) : List String :=
  m.bindings.map (·.nsPrefix)

/-- The map that binds each of the prefixes to what `f` gives for it. -/
def ofPrefixes (prefixes : List String) (f : String → Option String) : PrefixMap :=
  prefixes.foldl (fun m p => m.set p (f p)) empty

/-! ## What a map answers -/

@[simp] theorem get?_empty (p : String) : empty.get? p = none := rfl

theorem get?_single (p q uri : String) :
    (single p uri).get? q = if p = q then some uri else none := by
  unfold get? single
  by_cases h : p = q <;> simp [h]

theorem find?_insertList (p q uri : String) (bs : List Binding) :
    (insertList p uri bs).find? (·.nsPrefix = q) =
      if p = q then some ⟨p, uri⟩ else bs.find? (·.nsPrefix = q) := by
  induction bs with
  | nil => by_cases h : p = q <;> simp [insertList, h]
  | cons a bs ih =>
    unfold insertList
    split
    · by_cases h : p = q <;> simp [h]
    · split
      · rename_i heq
        by_cases h : p = q
        · simp [h]
        · simp [h, heq ▸ h]
      · rename_i hne
        by_cases ha : a.nsPrefix = q
        · have : p ≠ q := fun h => hne (h.trans ha.symm)
          simp [ha, this]
        · simp [ha, ih]

@[simp] theorem get?_insert (m : PrefixMap) (p q uri : String) :
    (m.insert p uri).get? q = if p = q then some uri else m.get? q := by
  unfold get? insert
  rw [find?_insertList]
  by_cases h : p = q <;> simp [h]

@[simp] theorem get?_erase (m : PrefixMap) (p q : String) :
    (m.erase p).get? q = if p = q then none else m.get? q := by
  unfold get? erase
  rw [List.find?_filter]
  by_cases h : p = q
  · subst h
    simp
  · simp only [h, if_false]
    congr 2
    funext b
    by_cases hb : b.nsPrefix = q
    · simp [hb, Ne.symm h]
    · simp [hb]

@[simp] theorem get?_set (m : PrefixMap) (p q : String) (uri? : Option String) :
    (m.set p uri?).get? q = if p = q then uri? else m.get? q := by
  cases uri? <;> simp [set]

theorem get?_foldl_set (ps : List String) (f : String → Option String) (m : PrefixMap)
    (q : String) :
    (ps.foldl (fun m p => m.set p (f p)) m).get? q = if q ∈ ps then f q else m.get? q := by
  induction ps generalizing m with
  | nil => simp
  | cons p ps ih =>
    rw [List.foldl_cons, ih]
    by_cases hq : q ∈ ps
    · simp [hq]
    · by_cases hp : p = q
      · simp [hp]
      · simp [hq, hp, Ne.symm hp]

@[simp] theorem get?_ofPrefixes (ps : List String) (f : String → Option String) (q : String) :
    (ofPrefixes ps f).get? q = if q ∈ ps then f q else none :=
  get?_foldl_set ps f empty q

theorem get?_eq_some_iff {m : PrefixMap} {p uri : String} :
    m.get? p = some uri ↔ (⟨p, uri⟩ : Binding) ∈ m.bindings := by
  obtain ⟨bs, hs⟩ := m
  unfold get?
  dsimp only
  induction bs with
  | nil => simp
  | cons a bs ih =>
    obtain ⟨ha, hbs⟩ := List.pairwise_cons.mp hs
    by_cases h : a.nsPrefix = p
    · have hnot : ∀ uri, (⟨p, uri⟩ : Binding) ∉ bs := fun uri hmem =>
        String.lt_irrefl _ (h ▸ ha _ hmem)
      obtain ⟨ap, au⟩ := a
      obtain rfl : ap = p := h
      simp [hnot, eq_comm]
    · have hne : a ≠ ⟨p, uri⟩ := fun he => h (he ▸ rfl)
      simp [h, ih hbs, hne.symm]

theorem ext_list {bs cs : List Binding} (hb : bs.Pairwise (·.nsPrefix < ·.nsPrefix))
    (hc : cs.Pairwise (·.nsPrefix < ·.nsPrefix)) (h : ∀ b, b ∈ bs ↔ b ∈ cs) : bs = cs := by
  induction bs generalizing cs with
  | nil => exact (List.eq_nil_iff_forall_not_mem.mpr fun b hm => by simpa using (h b).mpr hm).symm
  | cons b bs ih =>
    cases cs with
    | nil => simpa using (h b).mp List.mem_cons_self
    | cons c cs =>
      obtain ⟨hb₁, hb₂⟩ := List.pairwise_cons.mp hb
      obtain ⟨hc₁, hc₂⟩ := List.pairwise_cons.mp hc
      have hbc : b = c := by
        rcases List.mem_cons.mp ((h b).mp List.mem_cons_self) with he | hbm
        · exact he
        · rcases List.mem_cons.mp ((h c).mpr List.mem_cons_self) with he | hcm
          · exact he.symm
          · exact absurd (String.lt_trans (hb₁ c hcm) (hc₁ b hbm)) (String.lt_irrefl _)
      subst hbc
      refine congrArg (b :: ·) (ih hb₂ hc₂ fun x => ?_)
      have hx := h x
      simp only [List.mem_cons] at hx
      constructor
      · intro hm
        rcases hx.mp (.inr hm) with rfl | hm'
        · exact absurd (hb₁ x hm) (String.lt_irrefl _)
        · exact hm'
      · intro hm
        rcases hx.mpr (.inr hm) with rfl | hm'
        · exact absurd (hc₁ x hm) (String.lt_irrefl _)
        · exact hm'

/-- A map is determined by what it answers. -/
theorem ext {m n : PrefixMap} (h : ∀ p, m.get? p = n.get? p) : m = n := by
  have hmem : ∀ b : Binding, b ∈ m.bindings ↔ b ∈ n.bindings := fun b => by
    rw [← get?_eq_some_iff, ← get?_eq_some_iff, h]
  cases m
  cases n
  simp only [mk.injEq]
  exact ext_list ‹_› ‹_› hmem

end PrefixMap

end CanonicalXml
