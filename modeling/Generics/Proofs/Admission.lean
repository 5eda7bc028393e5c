import Generics.Proofs.Applicability

/-!
# What admissible arguments meet

A parameter meets a special constraint only if every argument that its definition takes meets it.  There
is one exception: a reference type is also promised by a parameter that is bounded by another which
declares itself one, and where an interface stands for that one, a struct may stand for the first.
-/

namespace Generics

/-- Whatever special constraints a parameter of `g` meets, the argument for it meets, if `g` takes the
arguments, unless one of them is to be a reference type and a parameter bounds this one that declares itself
a reference type and that an interface stands for. -/
theorem isEmpty_missing_argument {c : Catalog} {s s' : Session} {us vs : Types} {g : DefId}
    {xs : List TypeId} {i : Nat} {x q closed : TypeId} {demanded : Special}
    (hc : c.Declared s.types) (hlayered : c.Layered s.types) (hus : s.types.Grows us)
    (hq : us.get? q = some (.param ⟨g, i⟩)) (hpromise : ((c.view us).missing q demanded).isEmpty)
    (hvalid : ∀ x ∈ xs, (c.view s.types).check x = .ok () ∧ (c.view s.types).isParam x = false)
    (hconstruct : Engine.construct c g xs s = (.ok closed, s')) (hx : xs[i]? = some x)
    (hinterface : demanded.includes .reference → ∀ p decl y,
      Relation.TransGen (c.BoundBy s.types) ⟨g, i⟩ p → c.definitions.param? p = some decl →
        decl.declares .reference → xs[p.index]? = some y →
          (c.view s.types).kindOf y ≠ some .interfaceType)
    (hvs : s.types.Grows vs) : ((c.view vs).missing x demanded).isEmpty := by
  obtain ⟨Xs, hXs, -, hkinds⟩ := exists_kinds hc.plain hvalid
  obtain ⟨-, hconstructed, -⟩ :=
    (Engine.settles_construct hc.grounded (.refl _) hXs).of_apply_eq hconstruct
  obtain ⟨-, info, htakes⟩ := hconstructed closed rfl
  obtain ⟨X, -, hxX⟩ := exists_getElem?_of_forall₂ hXs hx
  rw [Catalog.missing_grow hc.grounded hxX hvs]
  refine isEmpty_missing_of_promised hc hlayered hXs hkinds htakes hus hx hq hpromise fun hm => ?_
  rintro ⟨p, decl, hbounds, hdecl, hdeclares, hkind⟩
  obtain rfl : p.owner = g := owner_of_bounds hc hbounds
  obtain ⟨Y, -, hY, hassign⟩ := htakes.exists_getElem? hdecl
  obtain ⟨y, hy, hyY⟩ := exists_getElem?_of_forall₂ hXs.flip hY
  refine hinterface ((Special.mem_demands_iff (.inl rfl)).1 hm) p decl y hbounds hdecl hdeclares hy ?_
  rw [Catalog.kindOf_eq hc.plain hyY, ← hassign]
  exact hkind

namespace BoundSample

/-- The parameter `T : U` is promised to be a reference type as `U` is; where the class `C` stands for
both, it is one. -/
theorem isEmpty_missing_argument_class :
    (((catalog .none .reference).view session.types).missing ⟨7⟩ .reference).isEmpty ∧
      (Engine.construct (catalog .none .reference) ⟨1⟩ [⟨6⟩, ⟨6⟩] session).1 = .ok ⟨9⟩ ∧
      (((catalog .none .reference).view session.types).missing ⟨6⟩ .reference).isEmpty := by
  have hpromise : (((catalog .none .reference).view session.types).missing ⟨7⟩ .reference).isEmpty := by
    decide +kernel
  have hconstruct : (Engine.construct (catalog .none .reference) ⟨1⟩ [⟨6⟩, ⟨6⟩] session).1 = .ok ⟨9⟩ := by
    decide +kernel
  have hkind : ∀ y ∈ [(⟨6⟩ : TypeId), ⟨6⟩],
      ((catalog .none .reference).view session.types).kindOf y ≠ some .interfaceType := by
    decide +kernel
  exact ⟨hpromise, hconstruct, isEmpty_missing_argument (q := ⟨7⟩) (i := 0)
    (Catalog.WellDeclared.declared (by decide +kernel)) (by decide +kernel) (.refl _) (by decide +kernel)
    hpromise (by decide +kernel) (Prod.fst_eq_iff.1 hconstruct) rfl
    (fun _ p decl y _ _ _ hy => hkind y (List.mem_of_getElem? hy)) (.refl _)⟩

/-- Where the interface `I` stands for `U`, the struct `S` is taken for `T`, and it is no reference
type. -/
theorem promised_but_not_struct :
    (catalog .none .reference).Declared session.types ∧
    (catalog .none .reference).Layered session.types ∧
    session.types.get? ⟨7⟩ = some (.param ⟨⟨1⟩, 0⟩) ∧
    (((catalog .none .reference).view session.types).missing ⟨7⟩ .reference).isEmpty ∧
    (∀ x ∈ [⟨5⟩, ⟨4⟩], ((catalog .none .reference).view session.types).check x = .ok () ∧
      ((catalog .none .reference).view session.types).params x = []) ∧
    (Engine.construct (catalog .none .reference) ⟨1⟩ [⟨5⟩, ⟨4⟩] session).1 = .ok ⟨9⟩ ∧
    ¬(((catalog .none .reference).view session.types).missing ⟨5⟩ .reference).isEmpty := by
  refine ⟨Catalog.WellDeclared.declared (by decide +kernel), ?_, ?_, ?_, ?_, ?_, ?_⟩ <;>
    decide +kernel

end BoundSample

end Generics
