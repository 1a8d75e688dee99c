import CanonicalXml.Mode
/-! # The registry of algorithms

Algorithms by identifier.

* `FactoryMap` — what makes algorithms, by identifier. `FactoryMap.register` adds
  something under an identifier that is not taken; `FactoryMap.seed` puts
  something under those of the seven algorithms, whatever was there.
* `FactoryMap.lookup`, `FactoryMap.uris` answer.
* `Registry` — a map that makes the seven algorithms, which
  `Registry.registerDefaults` puts in their places.
-/

namespace CanonicalXml

/-- What makes algorithms, by identifier. No identifier occurs twice. -/
structure FactoryMap (α : Type) where
  entries : List (String × α) := []
  nodup : (entries.map (·.1)).Nodup := by simp
deriving DecidableEq

namespace FactoryMap

variable {α : Type}

def empty : FactoryMap α := {}

def contains (r : FactoryMap α) (uri : String) : Bool :=
  (r.entries.lookup uri).isSome

/-- Puts a factory under an identifier, instead of the one that was there. -/
def put (r : FactoryMap α) (uri : String) (factory : α) : FactoryMap α where
  entries := (uri, factory) :: r.entries.filter (·.1 ≠ uri)
  nodup := by
    refine List.nodup_cons.mpr ⟨fun h => ?_, r.nodup.sublist (List.filter_sublist.map _)⟩
    obtain ⟨entry, hentry, he⟩ := List.mem_map.mp h
    exact of_decide_eq_true (List.mem_filter.mp hentry).2 he

/-- Puts a factory under the identifier of each of the seven algorithms. -/
def seed (r : FactoryMap α) (make : Mode → α) : FactoryMap α :=
  Mode.all.foldl (fun r mode => r.put mode.uri (make mode)) r

/-- Adds a factory. The identifier may not be taken. -/
def register (r : FactoryMap α) (uri : String) (factory : α) : Except Fault (FactoryMap α) :=
  if r.contains uri then .error (.alreadyRegistered uri) else .ok (r.put uri factory)

def lookup (r : FactoryMap α) (uri : String) : Except Fault α :=
  match r.entries.lookup uri with
  | some factory => .ok factory
  | none => .error (.unknownAlgorithm uri)

def uris (r : FactoryMap α) : List String :=
  (r.entries.map (·.1)).mergeSort fun a b => decide (a ≤ b)

end FactoryMap

/-- A map whose factories make the seven algorithms, and are known by what they make. -/
abbrev Registry := FactoryMap Mode

namespace Registry

abbrev empty : Registry := FactoryMap.empty

def registerDefaults (r : Registry) : Registry :=
  r.seed id

def defaults : Registry :=
  empty.registerDefaults

end Registry

end CanonicalXml
