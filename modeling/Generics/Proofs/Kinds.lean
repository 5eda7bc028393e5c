import Generics.Proofs.Deciding
import Generics.Proofs.Promises

/-!
# Kinds along the hierarchy

Where only classes have a base class, which is a class, and everything else that is inherited is an
interface, a type below a class is a class, and nothing lies below a struct but the struct itself.
-/

namespace Generics

/-- The kind of the definition that `t` is an instance of. -/
def View.kindOf (v : View) (t : TypeId) : Option Kind :=
  ((v.definitionOf t).bind v.definition?).map (·.kind)

/-- Only classes have a base class, which is a class, and only interfaces are inherited beside it. -/
structure Catalog.Layered (c : Catalog) (ts : Types) : Prop where
  base : ∀ d info, c.definitions.get? d = some info → ∀ t ∈ info.base.toList,
    info.kind = .classType ∧ (c.view ts).kindOf t = some .classType
  interfaces : ∀ d info, c.definitions.get? d = some info → ∀ t ∈ info.interfaces,
    (c.view ts).kindOf t = some .interfaceType

instance (c : Catalog) (ts : Types) : Decidable (c.Layered ts) :=
  decidable_of_iff _ ⟨fun h : _ ∧ _ => ⟨h.1, h.2⟩, fun h => ⟨h.base, h.interfaces⟩⟩

variable {c : Catalog} {base : Types} {S T U : Tree} {t : TypeId} {k : Kind} {f : Param → Tree}

theorem Catalog.kindOf_eq (hplain : c.overrides = []) (ht : base.Unfolds t T) :
    (c.view base).kindOf t = T.kind? c.definitions := by
  rw [View.kindOf, definitionOf_eq hplain ht]
  rfl

namespace Tree

variable {ds : Definitions}

theorem isSome_definition?_of_kind? (h : T.kind? ds = some k) : T.definition?.isSome := by
  obtain ⟨_, hinfo, -⟩ := Option.map_eq_some_iff.1 h
  obtain ⟨d, hd, -⟩ := Option.bind_eq_some_iff.1 hinfo
  rw [hd]
  rfl

theorem kind?_of_definition? {d : DefId} {info : Definition} (hd : T.definition? = some d)
    (hinfo : ds.get? d = some info) : T.kind? ds = some info.kind := by
  rw [kind?, hd, Option.bind_some, hinfo, Option.map_some]

theorem kind?_subst (h : T.kind? ds = some k) : (T.subst f).kind? ds = some k := by
  obtain ⟨d, hd⟩ := Option.isSome_iff_exists.1 (isSome_definition?_of_kind? h)
  rw [← h, kind?, kind?, hd, definition?_subst hd]

end Tree

/-- What is right above a type that is no parameter is an interface, or it is a class above a class. -/
theorem DirectSupertype.kind? (hplain : c.overrides = []) (hc : c.Layered base)
    (hS : S.kind? c.definitions = some k) (h : DirectSupertype c base S U) :
    U.kind? c.definitions = some .interfaceType ∨
      k = .classType ∧ U.kind? c.definitions = some .classType := by
  cases h with
  | @declared d info t T hd hinfo ht hT =>
    have hk : info.kind = k := by
      rw [Tree.kind?_of_definition? hd hinfo] at hS
      exact Option.some.inj hS
    rcases List.mem_append.1 ht with ht | ht
    · obtain ⟨hclass, hkind⟩ := hc.base d info hinfo t ht
      rw [c.kindOf_eq hplain hT] at hkind
      exact .inr ⟨hk.symm.trans hclass, Tree.kind?_subst hkind⟩
    · have hkind := hc.interfaces d info hinfo t ht
      rw [c.kindOf_eq hplain hT] at hkind
      exact .inl (Tree.kind?_subst hkind)
  | constraint hp =>
    rw [hp] at hS
    cases hS

namespace Supertype

/-- What lies above a type that is no parameter is the type itself, an interface, or a class above a
class. -/
theorem kind? (hplain : c.overrides = []) (hc : c.Layered base)
    (hS : S.kind? c.definitions = some k) (h : Supertype c base S U) :
    U = S ∨ U.kind? c.definitions = some .interfaceType ∨
      k = .classType ∧ U.kind? c.definitions = some .classType := by
  induction h with
  | refl => exact .inl rfl
  | tail _ hdirect ih =>
    rcases ih with rfl | hinterface | ⟨hk, hclass⟩
    · exact .inr (hdirect.kind? hplain hc hS)
    · exact .inr ((hdirect.kind? hplain hc hinterface).imp id fun h => absurd h.1 nofun)
    · exact .inr ((hdirect.kind? hplain hc hclass).imp id fun h => ⟨hk, h.2⟩)

theorem eq_classType (hplain : c.overrides = []) (hc : c.Layered base)
    (hS : S.kind? c.definitions = some k) (hU : U.kind? c.definitions = some .classType)
    (h : Supertype c base S U) : k = .classType := by
  rcases h.kind? hplain hc hS with rfl | hinterface | ⟨hk, -⟩
  · exact Option.some.inj (hS.symm.trans hU)
  · exact absurd (hinterface.symm.trans hU) nofun
  · exact hk

/-- Structs are sealed. -/
theorem eq_of_structType (hplain : c.overrides = []) (hc : c.Layered base)
    (hS : S.kind? c.definitions = some k) (hU : U.kind? c.definitions = some .structType)
    (h : Supertype c base S U) : U = S := by
  rcases h.kind? hplain hc hS with heq | hinterface | ⟨-, hclass⟩
  · exact heq
  · exact absurd (hinterface.symm.trans hU) nofun
  · exact absurd (hclass.symm.trans hU) nofun

end Supertype

end Generics
