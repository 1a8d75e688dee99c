import CanonicalXml.Canonicalizer
import CanonicalXml.Proofs.CodePointOrder
import Mathlib.Data.List.Induction

/-! # What a registry answers, by the calls before

Every call to a registry is one step, so that callers who use it at the same time make one sequence
of calls between them.  What a call answers is determined by the calls that came before it: an
identifier belongs to the first that registered it, but those of the seven algorithms belong to
these as soon as the defaults have been registered.

* `FactoryMap.Call`, `FactoryMap.Answer`, `FactoryMap.answers` — sequences of calls.
* `FactoryMap.Call.takes`, `FactoryMap.owner?` — what a sequence says of an identifier.
* `FactoryMap.lookup_perform` — what one call changes; `FactoryMap.lookup_after` — what all do.
* `FactoryMap.answered_by_history` — the answers.
-/

namespace CanonicalXml.FactoryMap

variable {α : Type} {make : Mode → α} {r : FactoryMap α} {uri other : String}

inductive Call (α : Type) where
  | register (uri : String) (factory : α)
  | registerDefaults
  | lookup (uri : String)
  | contains (uri : String)
  | uris
deriving DecidableEq

inductive Answer (α : Type) where
  | registered (outcome : Except Fault Unit)
  | seeded
  | found (outcome : Except Fault α)
  | contained (present : Bool)
  | listed (uris : List String)

/-- One call: the map afterwards and the answer.  `make` says which factories the defaults are. -/
def perform (make : Mode → α) (r : FactoryMap α) : Call α → FactoryMap α × Answer α
  | .register uri factory =>
    match r.register uri factory with
    | .ok changed => (changed, .registered (.ok ()))
    | .error fault => (r, .registered (.error fault))
  | .registerDefaults => (r.seed make, .seeded)
  | .lookup uri => (r, .found (r.lookup uri))
  | .contains uri => (r, .contained (r.contains uri))
  | .uris => (r, .listed r.uris)

def after (make : Mode → α) (r : FactoryMap α) (calls : List (Call α)) : FactoryMap α :=
  calls.foldl (fun r call => (r.perform make call).1) r

def answers (make : Mode → α) (r : FactoryMap α) : List (Call α) → List (Answer α)
  | [] => []
  | call :: calls => (r.perform make call).2 :: answers make (r.perform make call).1 calls

/-- An empty map, or one with the defaults. -/
def start (make : Mode → α) (seeded : Bool) : FactoryMap α :=
  if seeded then empty.seed make else empty

/-! ## Histories -/

/-- Whether the identifier is taken after the call, if only because it was before. -/
def Call.takes (uri : String) : Call α → Bool
  | .register other _ => other = uri
  | .registerDefaults => (Mode.ofUri? uri).isSome
  | _ => false

def taken (seeded : Bool) (calls : List (Call α)) (uri : String) : Bool :=
  (seeded && (Mode.ofUri? uri).isSome) || calls.any (·.takes uri)

def Call.isRegisterDefaults : Call α → Bool
  | .registerDefaults => true
  | _ => false

/-- What the call would register under the identifier. -/
def Call.registers? (uri : String) : Call α → Option α
  | .register other factory => if other = uri then some factory else none
  | _ => none

/-- What the identifier stands for after these calls: one of the seven algorithms if it is theirs
and the defaults were registered at some point, and otherwise what was registered first. -/
def owner? (make : Mode → α) (seeded : Bool) (calls : List (Call α)) (uri : String) : Option α :=
  match Mode.ofUri? uri with
  | some mode =>
    if seeded || calls.any Call.isRegisterDefaults then some (make mode)
    else calls.findSome? (·.registers? uri)
  | none => calls.findSome? (·.registers? uri)

/-! ## One call -/

theorem lookup_filter_ne (entries : List (String × α)) (different : uri ≠ other) :
    (entries.filter (·.1 ≠ uri)).lookup other = entries.lookup other := by
  induction entries with
  | nil => rfl
  | cons entry entries ih =>
    by_cases is : entry.1 = uri
    · have passed : (other == entry.1) = false := by simpa [is] using different.symm
      rw [List.filter_cons_of_neg (by simpa using is), ih, List.lookup_cons, passed]
    · rw [List.filter_cons_of_pos (by simpa using is), List.lookup_cons, List.lookup_cons, ih]

theorem lookup_put (r : FactoryMap α) (uri : String) (factory : α) (other : String) :
    (r.put uri factory).entries.lookup other =
      if uri = other then some factory else r.entries.lookup other := by
  simp only [put]
  rw [List.lookup_cons]
  by_cases same : uri = other
  · simp [same]
  · have passed : (other == uri) = false := by simpa using Ne.symm same
    rw [passed, if_neg same]
    exact lookup_filter_ne r.entries same

/-- The defaults stand under their identifiers, and nothing else is changed. -/
theorem lookup_seed (r : FactoryMap α) (make : Mode → α) (uri : String) :
    (r.seed make).entries.lookup uri =
      ((Mode.ofUri? uri).map make).or (r.entries.lookup uri) := by
  have general : ∀ (modes : List Mode) (r : FactoryMap α), (modes.map Mode.uri).Nodup →
      (modes.foldl (fun r mode => r.put mode.uri (make mode)) r).entries.lookup uri =
        ((modes.find? (·.uri = uri)).map make).or (r.entries.lookup uri) := by
    intro modes
    induction modes with
    | nil => intro r _; rfl
    | cons mode modes ih =>
      intro r nodup
      obtain ⟨absent, nodup⟩ := List.nodup_cons.mp nodup
      rw [List.foldl_cons, ih _ nodup, lookup_put]
      by_cases same : mode.uri = uri
      · -- None of the others is put in its place again.
        have none : modes.find? (·.uri = uri) = none := by
          refine List.find?_eq_none.mpr fun other member found => absent ?_
          exact List.mem_map.mpr ⟨other, member, (of_decide_eq_true found).trans same.symm⟩
        rw [none, List.find?_cons_of_pos (by simpa using same), if_pos same]
        rfl
      · rw [List.find?_cons_of_neg (by simpa using same), if_neg same]
  exact general Mode.all r (by decide)

theorem perform_register (make : Mode → α) (r : FactoryMap α) (uri : String) (factory : α) :
    r.perform make (.register uri factory) =
      if r.contains uri then (r, .registered (.error (.alreadyRegistered uri)))
      else (r.put uri factory, .registered (.ok ())) := by
  simp only [perform, register]
  cases r.contains uri with
  | true => rfl
  | false => rfl

/-- A call that does not register the defaults adds what it registers, if nothing is there. -/
theorem lookup_perform (make : Mode → α) (r : FactoryMap α) {call : Call α}
    (single : call.isRegisterDefaults = false) (uri : String) :
    (r.perform make call).1.entries.lookup uri =
      (r.entries.lookup uri).or (call.registers? uri) := by
  cases call with
  | register other factory =>
    rw [perform_register, contains]
    cases there : r.entries.lookup other with
    | some first =>
      by_cases same : other = uri
      · rw [← same, there]
        exact there
      · simp [Call.registers?, same]
    | none =>
      by_cases same : other = uri
      · simp [lookup_put, Call.registers?, ← same, there]
      · simp [lookup_put, Call.registers?, same]
  | registerDefaults => cases single
  | lookup other => exact (Option.or_none).symm
  | contains other => exact (Option.or_none).symm
  | uris => exact (Option.or_none).symm

/-! ## All calls -/

section History

variable (make : Mode → α) (seeded : Bool) (calls : List (Call α))

theorem owner?_registerDefaults (uri : String) :
    owner? make seeded (calls ++ [.registerDefaults]) uri =
      ((Mode.ofUri? uri).map make).or (owner? make seeded calls uri) := by
  have unchanged : (calls ++ [Call.registerDefaults]).findSome? (Call.registers? uri) =
      calls.findSome? (Call.registers? uri) := by
    rw [List.findSome?_append]
    exact Option.or_none
  simp only [owner?]
  rw [unchanged, List.any_append]
  cases Mode.ofUri? uri with
  | none => rfl
  | some mode => simp [Call.isRegisterDefaults]

theorem owner?_append {call : Call α} (single : call.isRegisterDefaults = false) (uri : String) :
    owner? make seeded (calls ++ [call]) uri =
      (owner? make seeded calls uri).or (call.registers? uri) := by
  have added : (calls ++ [call]).findSome? (·.registers? uri) =
      (calls.findSome? (·.registers? uri)).or (call.registers? uri) := by
    rw [List.findSome?_append, List.findSome?_cons]
    cases call.registers? uri with
    | none => rfl
    | some factory => rfl
  have sameDefaults : (calls ++ [call]).any Call.isRegisterDefaults =
      calls.any Call.isRegisterDefaults := by
    rw [List.any_append, List.any_cons, single]
    simp
  simp only [owner?]
  rw [added, sameDefaults]
  cases Mode.ofUri? uri with
  | none => rfl
  | some mode =>
    dsimp only
    split
    · rfl
    · rfl

/-- After a sequence of calls every identifier stands for what the sequence says. -/
theorem lookup_after (uri : String) :
    ((start make seeded).after make calls).entries.lookup uri = owner? make seeded calls uri := by
  induction calls using List.reverseRecOn with
  | nil =>
    simp only [start]
    cases seeded with
    | false => cases known : Mode.ofUri? uri <;> simp [after, owner?, known, empty]
    | true =>
      refine (lookup_seed empty make uri).trans ?_
      cases known : Mode.ofUri? uri <;> simp [owner?, known, empty]
  | append_singleton calls call ih =>
    have step : (start make seeded).after make (calls ++ [call]) =
        (((start make seeded).after make calls).perform make call).1 := by
      rw [after, List.foldl_append]
      rfl
    rw [step]
    cases single : call.isRegisterDefaults with
    | false => rw [lookup_perform make _ single, ih, owner?_append make seeded calls single]
    | true =>
      cases call with
      | registerDefaults => rw [owner?_registerDefaults, ← ih]; exact lookup_seed _ make uri
      | _ => cases single

theorem Call.takes_eq {call : Call α} (single : call.isRegisterDefaults = false) (uri : String) :
    call.takes uri = (call.registers? uri).isSome := by
  cases call with
  | register other factory => by_cases same : other = uri <;> simp [takes, registers?, same]
  | registerDefaults => cases single
  | lookup other => rfl
  | contains other => rfl
  | uris => rfl

/-- An identifier is taken if it stands for something. -/
theorem isSome_owner? (uri : String) :
    (owner? make seeded calls uri).isSome = taken seeded calls uri := by
  induction calls using List.reverseRecOn with
  | nil => cases seeded <;> cases known : Mode.ofUri? uri <;> simp [owner?, taken, known]
  | append_singleton calls call ih =>
    have step : taken seeded (calls ++ [call]) uri =
        (taken seeded calls uri || call.takes uri) := by
      simp [taken, Bool.or_assoc]
    rw [step, ← ih]
    cases single : call.isRegisterDefaults with
    | false => rw [owner?_append make seeded calls single, Call.takes_eq single, Option.isSome_or]
    | true =>
      cases call with
      | registerDefaults =>
        rw [owner?_registerDefaults, Option.isSome_or, Option.isSome_map, Bool.or_comm]
        rfl
      | _ => cases single

theorem contains_after (uri : String) :
    ((start make seeded).after make calls).contains uri = taken seeded calls uri := by
  rw [contains, lookup_after, isSome_owner?]

end History

theorem lookup_eq (r : FactoryMap α) (uri : String) :
    r.lookup uri = (r.entries.lookup uri).elim (.error (.unknownAlgorithm uri)) .ok := by
  unfold lookup
  cases r.entries.lookup uri with
  | none => rfl
  | some factory => rfl

theorem contains_eq (r : FactoryMap α) (uri : String) : r.contains uri = (r.lookup uri).isOk := by
  rw [lookup_eq, contains]
  cases r.entries.lookup uri with
  | none => rfl
  | some factory => rfl

theorem mem_uris : uri ∈ r.uris ↔ (r.lookup uri).isOk = true := by
  rw [uris, List.mem_mergeSort, ← contains_eq, contains, Option.isSome_iff_ne_none, ne_eq,
    List.lookup_eq_none_iff]
  simp only [List.mem_map, bne_iff_ne, not_forall, ne_eq, not_not, exists_prop]
  exact exists_congr fun entry => and_congr_right fun _ => eq_comm

theorem sorted_uris (r : FactoryMap α) : r.uris.Pairwise (· < ·) := by
  have sorted : r.uris.Pairwise fun a b => decide (a ≤ b) = true := by
    apply List.pairwise_mergeSort
    · intro a b c first second
      exact decide_eq_true (String.le_trans (of_decide_eq_true first) (of_decide_eq_true second))
    · intro a b
      rw [Bool.or_eq_true, decide_eq_true_eq, decide_eq_true_eq]
      exact String.le_total a b
  have apart : r.uris.Nodup := (List.mergeSort_perm _ _).nodup_iff.mpr r.nodup
  refine (List.pairwise_and_iff.mpr ⟨sorted, apart⟩).imp ?_
  rintro a b ⟨le, different⟩
  exact lt_of_le_of_ne (of_decide_eq_true le) different

theorem after_append (make : Mode → α) (r : FactoryMap α) (earlier later : List (Call α)) :
    r.after make (earlier ++ later) = (r.after make earlier).after make later :=
  List.foldl_append

theorem answers_append (make : Mode → α) (r : FactoryMap α) (earlier later : List (Call α)) :
    r.answers make (earlier ++ later) =
      r.answers make earlier ++ (r.after make earlier).answers make later := by
  induction earlier generalizing r with
  | nil => rfl
  | cons call earlier ih => exact congrArg ((r.perform make call).2 :: ·) (ih _)

/-- The answers of a registry, whatever calls came before and come later.  An identifier can be
registered once, and a call that fails makes no difference.  What is looked up is what the history
says, and the list of identifiers is that of what can be looked up.  None is ever lost. -/
theorem answered_by_history (make : Mode → α) (seeded : Bool) (earlier later : List (Call α))
    (uri : String) :
    let first := start make seeded
    let r := first.after make earlier
    first.answers make (earlier ++ later) = first.answers make earlier ++ r.answers make later ∧
    (∀ factory,
      (r.perform make (.register uri factory)).2 = .registered
        (if taken seeded earlier uri then .error (.alreadyRegistered uri) else .ok ()) ∧
      (taken seeded earlier uri = true →
        r.answers make (.register uri factory :: later) =
          .registered (.error (.alreadyRegistered uri)) :: r.answers make later)) ∧
    (r.perform make (.lookup uri)).2 = .found
      ((owner? make seeded earlier uri).elim (.error (.unknownAlgorithm uri)) .ok) ∧
    (r.perform make (.contains uri)).2 = .contained (r.lookup uri).isOk ∧
    (∃ uris, (r.perform make .uris).2 = .listed uris ∧ uris.Pairwise (· < ·) ∧
      (uris.map Utf8.encode).Pairwise (· < ·) ∧
        ∀ other, other ∈ uris ↔ (r.lookup other).isOk = true) ∧
    (r.contains uri = true → (r.after make later).contains uri = true) ∧
    ∀ calls : List (Call Mode),
      let registry := (if seeded then Registry.defaults else Registry.empty).after id calls
      Canonicalizer.new registry uri =
        (owner? id seeded calls uri).elim (.error (.unknownAlgorithm uri)) fun mode =>
          .ok { mode } := by
  intro first r
  have present : r.contains uri = taken seeded earlier uri := contains_after make seeded earlier uri
  refine ⟨answers_append make first earlier later, ?_, ?_, ?_, ?_, ?_, ?_⟩
  · intro factory
    have registered := perform_register make r uri factory
    rw [present] at registered
    refine ⟨?_, fun isTaken => ?_⟩
    · rw [registered]
      cases taken seeded earlier uri with
      | true => rfl
      | false => rfl
    · rw [isTaken, if_pos rfl] at registered
      rw [answers, registered]
  · show Answer.found (r.lookup uri) = _
    rw [lookup_eq, lookup_after]
  · exact congrArg Answer.contained (contains_eq r uri)
  · refine ⟨r.uris, rfl, sorted_uris r, ?_, fun other => mem_uris⟩
    exact List.pairwise_map.mpr ((sorted_uris r).imp Utf8.encode_lt_iff.mpr)
  · intro isPresent
    have isTaken : taken seeded earlier uri = true := present ▸ isPresent
    rw [← after_append, contains_after]
    -- What the earlier calls take is taken by all of them.
    simp only [taken, List.any_append, Bool.or_eq_true] at isTaken ⊢
    exact isTaken.imp_right .inl
  · intro calls registry
    have same : registry = (start id seeded).after id calls := by
      cases seeded with
      | false => rfl
      | true => rfl
    rw [same, Canonicalizer.new, lookup_eq, lookup_after]
    cases owner? id seeded calls uri with
    | none => rfl
    | some mode => rfl

/-- A factory under an identifier of the seven algorithms gives way to the defaults, and one under
another identifier keeps it. -/
theorem answered_by_history_bootstrap :
    let inclusive := (Mode.canonical .inclusive false).uri
    let make := Mode.shortName
    let r := (start make false).after make
      [.register inclusive "own", .register "urn:x" "first", .registerDefaults]
    (r.perform make (.lookup inclusive)).2 = .found (.ok "c14n") ∧
      r.answers make [.register "urn:x" "second", .lookup "urn:x"] =
        [.registered (.error (.alreadyRegistered "urn:x")), .found (.ok "first")] ∧
      (r.after make [.register "urn:x" "second"]).contains "urn:x" = true := by
  intro inclusive make r
  let earlier : List (Call String) :=
    [.register inclusive "own", .register "urn:x" "first", .registerDefaults]
  have ours : owner? make false earlier inclusive = some "c14n" := by decide
  have theirs : owner? make false earlier "urn:x" = some "first" := by decide
  have isTaken : taken false earlier "urn:x" = true := by decide
  obtain ⟨-, -, found, -⟩ := answered_by_history make false earlier [] inclusive
  obtain ⟨-, -, kept, -⟩ := answered_by_history make false earlier [] "urn:x"
  obtain ⟨-, refused, -, -, -, stays, -⟩ :=
    answered_by_history make false earlier [.lookup "urn:x"] "urn:x"
  rw [ours] at found
  rw [theirs] at kept
  refine ⟨found, ((refused "second").2 isTaken).trans ?_, ?_⟩
  · exact congrArg (fun answer => [_, answer]) kept
  · exact stays ((contains_after make false earlier "urn:x").trans isTaken)

end CanonicalXml.FactoryMap
