import Generics.Proofs.Exploration
import Generics.Proofs.PartialClosure

/-!
# Specialising what lies above a definition

What lies above an instance of a definition may be had in two ways: by enumerating the supertypes of the
instance, or by enumerating those of the open definition and specialising each to the arguments.  Both
give the same types, although distinct supertypes of the definition may become one.
-/

namespace Generics

namespace Supertype

/-- Above an instance lie the instances of what lies above. -/
theorem subst_iff {c : Catalog} {base : Types} {S V : Tree} (hc : c.WellDeclared base)
    (hS : S.Wellformed c.definitions) (hd : S.definition?.isSome) (f : Param → Tree) :
    Supertype c base (S.subst f) V ↔ ∃ U, Supertype c base S U ∧ V = U.subst f :=
  ⟨exists_of_subst hc hS hd, fun ⟨_, hU, hV⟩ => hV ▸ hU.subst hc hS hd f⟩

end Supertype

namespace Engine

variable {c : Catalog} {base ts us : Types} {t u : TypeId} {T : Tree} {found images : List TypeId}

/-- An enumeration that has not been cut short has found the types that are supertypes. -/
theorem Above.mem_iff (h : Above c base ts t T found false) (hgrow : ts.Grows us) :
    u ∈ found ↔ ∃ U, us.Unfolds u U ∧ Supertype c base T U := by
  constructor
  · intro hu
    obtain ⟨U, hU, hTU⟩ := h.sound u hu
    exact ⟨U, hU.grow hgrow, hTU⟩
  · rintro ⟨U, hU, hTU⟩
    obtain ⟨v, hv, hV⟩ := h.complete rfl U hTU
    exact hU.inj (hV.grow hgrow) ▸ hv

/-- What an enumeration that has not been cut short has found are trees, namely all the supertypes. -/
theorem Above.exists_forall₂ (h : Above c base ts t T found false) :
    ∃ Us, List.Forall₂ ts.Unfolds found Us ∧ ∀ U, U ∈ Us ↔ Supertype c base T U := by
  obtain ⟨Us, hUs⟩ := forall₂_of_forall_exists fun u hu => (h.sound u hu).imp fun U hU => hU.1
  refine ⟨Us, hUs, fun U => ⟨fun hU => ?_, fun hU => ?_⟩⟩
  · obtain ⟨u, hu, huU⟩ := exists_of_mem_right hUs hU
    obtain ⟨V, hV, hTV⟩ := h.sound u hu
    exact huU.unique hV ▸ hTV
  · obtain ⟨u, hu, huU⟩ := h.complete rfl U hU
    obtain ⟨V, hV, huV⟩ := exists_of_mem_left hUs hu
    exact huU.unique huV ▸ hV

/-- The images of all supertypes of a type are the supertypes of its image. -/
theorem mem_images_iff {Us : List Tree} {f : Param → Tree} (hc : c.WellDeclared base)
    (hT : T.Wellformed c.definitions) (hd : T.definition?.isSome)
    (hUs : ∀ U, U ∈ Us ↔ Supertype c base T U)
    (himages : List.Forall₂ us.Unfolds images (Us.map (Tree.subst f))) :
    u ∈ images ↔ ∃ V, us.Unfolds u V ∧ Supertype c base (T.subst f) V := by
  simp only [Supertype.subst_iff hc hT hd]
  constructor
  · intro hu
    obtain ⟨V, hV, huV⟩ := exists_of_mem_left himages hu
    obtain ⟨U, hU, rfl⟩ := List.mem_map.1 hV
    exact ⟨_, huV, U, (hUs U).1 hU, rfl⟩
  · rintro ⟨_, huV, U, hTU, rfl⟩
    obtain ⟨v, hv, hvV⟩ := exists_of_mem_right himages (List.mem_map_of_mem ((hUs U).2 hTU))
    exact huV.inj hvV ▸ hv

end Engine

/-- The supertypes of an instance `D<X>` are the supertypes of the open `D`, specialised to `X`. -/
theorem mem_supertypes_instance_iff {c : Catalog} {s s₁ s₂ s₃ s₄ s₅ : Session} {d : DefId}
    {info : Definition} {opened closed u : TypeId} {xs images : List TypeId}
    {above above' : InternTable TypeId} (hc : c.WellDeclared s.types)
    (hinfo : c.definitions.get? d = some info) (harity : info.arity = xs.length)
    (hopen : Engine.definitionType c d s = (some opened, s₁))
    (habove : Engine.supertypes c opened s₁ = (above, s₂))
    (hlimit : Engine.cutShort (Engine.supertypes c opened) s₁ = false)
    (hvalid : ∀ x ∈ xs, (c.view s₂.types).check x = .ok ())
    (hclosed : Engine.intern (.app d xs) s₂ = (closed, s₃))
    (habove' : Engine.supertypes c closed s₃ = (above', s₄))
    (hlimit' : Engine.cutShort (Engine.supertypes c closed) s₃ = false)
    (himages : above.toList.mapM (Engine.instantiate c · (.ofArgs d xs)) s₄ = (images, s₅)) :
    u ∈ above'.toList ↔ u ∈ images := by
  have hplain := hc.plain
  -- the open definition
  obtain ⟨hgrow₁, -, hopened⟩ := (Engine.settles_definitionType c d s.types).of_apply_eq hopen
  rw [hinfo] at hopened
  obtain ⟨_, ⟨⟩, hopened⟩ := hopened
  obtain ⟨hgrow₂, hlies⟩ :=
    (Engine.settles_supertypes hc.grounded hgrow₁ hopened).of_apply_eq habove
  rw [hlimit] at hlies
  obtain ⟨Us, hUs, hall⟩ := hlies.exists_forall₂
  -- the instance
  obtain ⟨Xs, hXs⟩ := forall₂_of_forall_exists fun x hx =>
    ((c.check_eq_ok_iff hplain).1 (hvalid x hx)).imp fun X hX => hX.1
  have hinstance : (Tree.opened d info.arity).subst (.assign d Xs) = .apply d Xs :=
    Tree.subst_assign_opened (hXs.length_eq.symm.trans harity.symm)
  obtain ⟨hgrow₃, hclosed⟩ := (Engine.Settles.intern (P := fun t ts _ => ts.Unfolds t (.apply d Xs))
    (s₂.types.unfolds_intern_app d hXs)).of_apply_eq hclosed
  rw [← hinstance] at hclosed
  have hbase := hgrow₁.trans (hgrow₂.trans hgrow₃)
  obtain ⟨hgrow₄, hlies'⟩ :=
    (Engine.settles_supertypes hc.grounded hbase hclosed).of_apply_eq habove'
  rw [hlimit'] at hlies'
  -- the images
  have hgrow := hgrow₃.trans hgrow₄
  obtain ⟨hgrow₅, himages⟩ := (settles_mapM_instantiate hplain (Types.forall₂_unfolds_grow hUs hgrow)
    (Substitution.unfolds_ofArgs d (Types.forall₂_unfolds_grow hXs hgrow))).of_apply_eq himages
  rw [hlies'.mem_iff hgrow₅, Engine.mem_images_iff hc (Tree.wellformed_opened hinfo)
    (by simp [Tree.definition?_opened]) hall himages]

/-! ## Supertypes that become one -/

namespace ShuffleSample

/-- The session after the open type `A<T, U>` has been interned. -/
def opened : Session := (Engine.definitionType catalog ⟨3⟩ session).2

/-- What lies above `A<T, U>`, and the session after the enumeration. -/
def above : InternTable TypeId × Session := Engine.supertypes catalog ⟨9⟩ opened

/-- The session after `A<C, C>` has been interned. -/
def closed : Session := (Engine.intern (.app ⟨3⟩ [⟨6⟩, ⟨6⟩]) above.2).2

/-- What lies above `A<C, C>`, and the session after the enumeration. -/
def aboveClosed : InternTable TypeId × Session := Engine.supertypes catalog ⟨13⟩ closed

/-- The supertypes of `A<T, U>`, specialised to `C` and `C`. -/
def images : List TypeId × Session :=
  above.1.toList.mapM (Engine.instantiate catalog · (.ofArgs ⟨3⟩ [⟨6⟩, ⟨6⟩])) aboveClosed.2

/-- What lies above `A<T, U>` and above `A<U, T>` becomes one when both parameters stand for `C`. -/
theorem mem_supertypes_instance_iff_collapse :
    above.1.toList = [⟨9⟩, ⟨4⟩, ⟨10⟩, ⟨11⟩, ⟨5⟩, ⟨12⟩] ∧
      images.1 = [⟨13⟩, ⟨13⟩, ⟨14⟩, ⟨15⟩, ⟨14⟩, ⟨15⟩] ∧
      ∀ u, u ∈ aboveClosed.1.toList ↔ u ∈ images.1 := by
  have hopen : Engine.definitionType catalog ⟨3⟩ session = (some ⟨9⟩, opened) :=
    Prod.fst_eq_iff.1 (by decide +kernel)
  have hclosed : Engine.intern (.app ⟨3⟩ [⟨6⟩, ⟨6⟩]) above.2 = (⟨13⟩, closed) :=
    Prod.fst_eq_iff.1 (by decide +kernel)
  exact ⟨by decide +kernel, by decide +kernel, fun u => mem_supertypes_instance_iff
    (by decide +kernel) rfl rfl hopen rfl (by decide +kernel) (by decide +kernel) hclosed rfl
    (by decide +kernel) rfl⟩

end ShuffleSample

end Generics
