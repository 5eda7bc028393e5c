import Generics.Proofs.KeptPromises

/-!
# Special constraints on the graph of parameters

A parameter points to the parameters that it is constrained by.  It is a reference type, or a value type,
exactly if one of the parameters that it reaches makes it one, whatever cycles there are on the way; and it
has a default constructor exactly if its own declaration says so.  A parameter that is a value type through
others need not have one therefore, but what makes it a value type has.
-/

namespace Generics

namespace View

variable {v : View} {d : Demand} {p : Param} {kind : Kind} {t k : TypeId}

/-- Where constraints of one kind grant a demand, only these do. -/
theorem offers_iff (hkind : ∀ k : Kind, k.grants d ↔ k = kind) :
    v.Offers d p ↔ ∃ decl, v.param? p = some decl ∧
      (decl.declares d ∨ ∃ k ∈ decl.constraints, v.kindOf k = some kind) := by
  have hgrants : ∀ k, (∃ node, v.node? k = some node ∧ v.grants d node) ↔ v.kindOf k = some kind := by
    intro k
    simp only [grants, Option.any_eq_true, hkind, kindOf, definitionOf, Option.map_eq_some_iff,
      Option.bind_eq_some_iff]
    constructor
    · rintro ⟨node, hnode, info, ⟨e, he, hinfo⟩, hkind⟩
      exact ⟨info, ⟨e, ⟨node, hnode, he⟩, hinfo⟩, hkind⟩
    · rintro ⟨info, ⟨e, ⟨node, hnode, he⟩, hinfo⟩, hkind⟩
      exact ⟨node, hnode, info, ⟨e, he, hinfo⟩, hkind⟩
  simp only [Offers, hgrants]

/-- Where constraints of no kind grant a demand, only a declaration does. -/
theorem offers_iff_declares (hkind : ∀ k : Kind, k.grants d = false) :
    v.Offers d p ↔ ∃ decl, v.param? p = some decl ∧ decl.declares d := by
  simp [Offers, grants, hkind]

/-- Structs are value types and have a default constructor. -/
theorem meets_of_kindOf (h : v.kindOf t = some .structType) : v.isValueType t ∧ v.isConstructible t := by
  obtain ⟨info, h, hkind⟩ := Option.map_eq_some_iff.1 h
  obtain ⟨e, h, hinfo⟩ := Option.bind_eq_some_iff.1 h
  obtain ⟨node, hnode, he⟩ := Option.bind_eq_some_iff.1 h
  cases node with
  | param p => cases he
  | named e | app e args =>
    cases he
    simp [isValueType, isConstructible, meets, hnode, provides, Node.definition?, hinfo,
      Definition.provides, hkind]

/-- A value type that is no parameter is a struct. -/
theorem kindOf_of_isValueType (h : v.isValueType t) (hparam : ∀ p, v.node? t ≠ some (.param p)) :
    v.kindOf t = some .structType := by
  rw [isValueType, meets] at h
  cases hnode : v.node? t with
  | none => simp [hnode] at h
  | some node =>
    cases node with
    | param p => exact absurd hnode (hparam p)
    | named e | app e args =>
      simp only [hnode, provides, Option.any_eq_true] at h
      obtain ⟨info, hinfo, h⟩ := h
      rw [kindOf, definitionOf, hnode, Option.bind_some, hinfo, Option.map_some]
      simpa [Definition.provides] using h

end View

namespace Catalog

variable {c : Catalog} {ts : Types} {t u k : TypeId} {p q : Param} {d : Demand} {kind : Kind}

theorem inherits_iff (hplain : c.overrides = []) :
    (c.view ts).Inherits d p q ↔ d.isInherited ∧ c.BoundBy ts p q := by
  rw [View.Inherits, view_node? hplain]
  rfl

/-- What is inherited and granted by one kind of constraints is met by reaching it. -/
theorem meets_inherited_iff (kind : Kind) (hplain : c.overrides = []) (ht : ts.get? t = some (.param p))
    (hd : d.isInherited) (hkind : ∀ k : Kind, k.grants d ↔ k = kind) :
    (c.view ts).meets d t ↔ ∃ q decl, Relation.ReflTransGen (c.BoundBy ts) p q ∧
      c.definitions.param? q = some decl ∧
        (decl.declares d ∨ ∃ k ∈ decl.constraints, (c.view ts).kindOf k = some kind) := by
  have hinherits : (c.view ts).Inherits d = c.BoundBy ts := by
    funext p q
    exact propext ((inherits_iff hplain).trans (and_iff_right hd))
  refine (meets_param_iff hplain ht (c.size_lt_bound ts)).trans ?_
  simp only [hinherits, View.offers_iff hkind, exists_and_left]
  rfl

/-- What is neither inherited nor granted is met by declaring it. -/
theorem meets_own_iff (hplain : c.overrides = []) (ht : ts.get? t = some (.param p))
    (hd : d.isInherited = false) (hkind : ∀ k : Kind, k.grants d = false) :
    (c.view ts).meets d t ↔ ∃ decl, c.definitions.param? p = some decl ∧ decl.declares d := by
  refine (meets_param_iff hplain ht (c.size_lt_bound ts)).trans ?_
  simp only [View.offers_iff_declares hkind]
  refine ⟨fun ⟨q, hpq, hq⟩ => ?_, fun hp => ⟨p, .refl, hp⟩⟩
  rcases hpq.cases_head with rfl | ⟨r, hpr, -⟩
  · exact hq
  · exact absurd ((inherits_iff hplain).1 hpr).1 (by simp [hd])

theorem isValueType_iff (hplain : c.overrides = []) (ht : ts.get? t = some (.param p)) :
    (c.view ts).isValueType t ↔ ∃ q decl, Relation.ReflTransGen (c.BoundBy ts) p q ∧
      c.definitions.param? q = some decl ∧ (decl.declares .value ∨
        ∃ k ∈ decl.constraints, (c.view ts).kindOf k = some .structType) :=
  c.meets_inherited_iff .structType hplain ht rfl fun k => by simp [Kind.grants]

/-- Only the declaration of a parameter gives it a default constructor. -/
theorem isConstructible_iff (hplain : c.overrides = []) (ht : ts.get? t = some (.param p)) :
    (c.view ts).isConstructible t ↔ ∃ decl, c.definitions.param? p = some decl ∧
      decl.declares .constructible :=
  meets_own_iff hplain ht rfl fun _ => rfl

end Catalog

/-- The special constraints of a parameter are read off the graph of parameters: it is a reference type, or
a value type, exactly if a parameter that it reaches declares so or has a class, or a struct, among its
constraints; it has a default constructor exactly if its own declaration says `new()` or that it is a value
type; and no question takes more fuel than there are types, even where parameters constrain each other in a
circle. -/
theorem specials_of_param {c : Catalog} {ts : Types} {t : TypeId} {p : Param}
    (hplain : c.overrides = []) (ht : ts.get? t = some (.param p)) :
    ((c.view ts).isReferenceType t ↔ ∃ q decl, Relation.ReflTransGen (c.BoundBy ts) p q ∧
      c.definitions.param? q = some decl ∧ (decl.special.includes .reference ∨
        ∃ k ∈ decl.constraints, (c.view ts).kindOf k = some .classType)) ∧
    ((c.view ts).isValueType t ↔ ∃ q decl, Relation.ReflTransGen (c.BoundBy ts) p q ∧
      c.definitions.param? q = some decl ∧ (decl.special.includes .value ∨
        ∃ k ∈ decl.constraints, (c.view ts).kindOf k = some .structType)) ∧
    ((c.view ts).isConstructible t ↔ ∃ decl, c.definitions.param? p = some decl ∧
      (decl.special.includes .constructible ∨ decl.special.includes .value)) ∧
    ∀ d n, ts.size < n → { c.view ts with bound := n }.meets d t = (c.view ts).meets d t := by
  refine ⟨?reference, ?value, ?constructible, fun d n hn => ?fuel⟩
  case reference =>
    refine (c.meets_inherited_iff .classType hplain ht rfl fun k => ?_).trans ?_
    · simp [Kind.grants]
    · simp [ParamDecl.declares, Demand.toSpecial]
  case value =>
    rw [c.isValueType_iff hplain ht]
    simp [ParamDecl.declares, Demand.toSpecial]
  case constructible =>
    rw [c.isConstructible_iff hplain ht]
    simp [ParamDecl.declares, Demand.toSpecial]
  case fuel =>
    rw [Bool.eq_iff_iff]
    exact (c.meets_param_iff hplain ht hn).trans
      (c.meets_param_iff hplain ht (c.size_lt_bound ts)).symm

namespace RingSample

/-- Definitions of a struct `S` and a class `H<T, U, V, W>` where `T : U`, `U : T, V`, `V` is a value type
and `W : S`. -/
def catalog : Catalog where
  definitions.entries := #[
    { kind := .structType, name := ⟨1⟩ },
    { kind := .classType, name := ⟨2⟩,
      params := [{ name := ⟨3⟩, constraints := [⟨1⟩] }, { name := ⟨4⟩, constraints := [⟨0⟩, ⟨2⟩] },
        { name := ⟨5⟩, special := .value }, { name := ⟨6⟩, constraints := [⟨3⟩] }] }]

/-- The parameters `T`, `U` and `V`, then `S`, then `W`. -/
def session : Session where
  types := .ofNodes [.param ⟨⟨2⟩, 0⟩, .param ⟨⟨2⟩, 1⟩, .param ⟨⟨2⟩, 2⟩, .named ⟨1⟩, .param ⟨⟨2⟩, 3⟩]

/-- Behind the circle of `T` and `U` stands `V`, which makes `T` a value type without a constructor. -/
theorem specials_of_param_ring :
    (∃ q decl, Relation.ReflTransGen (catalog.BoundBy session.types) ⟨⟨2⟩, 0⟩ q ∧
      catalog.definitions.param? q = some decl ∧ (decl.special.includes .value ∨
        ∃ k ∈ decl.constraints, (catalog.view session.types).kindOf k = some .structType)) ∧
    (¬∃ q decl, Relation.ReflTransGen (catalog.BoundBy session.types) ⟨⟨2⟩, 0⟩ q ∧
      catalog.definitions.param? q = some decl ∧ (decl.special.includes .reference ∨
        ∃ k ∈ decl.constraints, (catalog.view session.types).kindOf k = some .classType)) ∧
    (catalog.view session.types).isConstructible ⟨0⟩ = false ∧
    { catalog.view session.types with bound := 6 }.meets .value ⟨0⟩ := by
  have hplain : catalog.overrides = [] := rfl
  have ht : session.types.get? ⟨0⟩ = some (.param ⟨⟨2⟩, 0⟩) := by decide +kernel
  have hvalue : (catalog.view session.types).isValueType ⟨0⟩ := by decide +kernel
  have hreference : ¬(catalog.view session.types).isReferenceType ⟨0⟩ := by decide +kernel
  obtain ⟨href, hval, -, hfuel⟩ := specials_of_param hplain ht
  exact ⟨hval.1 hvalue, mt href.2 hreference, by decide +kernel,
    (hfuel .value 6 (by decide +kernel)).trans hvalue⟩

end RingSample

/-! ## Value types and their constructors -/

namespace Catalog

variable {c : Catalog} {ts : Types} {t k : TypeId} {p q : Param}

/-- The type `t` is a parameter, and `k` is one of its constraints. -/
def ConstrainedBy (c : Catalog) (ts : Types) (t k : TypeId) : Prop :=
  ∃ p decl, ts.get? t = some (.param p) ∧ c.definitions.param? p = some decl ∧ k ∈ decl.constraints

/-- A parameter is a value type by its own declaration, or by a constraint that is one. -/
theorem declares_or_isValueType (hplain : c.overrides = []) (ht : ts.get? t = some (.param p))
    (h : (c.view ts).isValueType t) : ∃ decl, c.definitions.param? p = some decl ∧
      (decl.declares .value ∨ ∃ k ∈ decl.constraints, (c.view ts).isValueType k) := by
  obtain ⟨q, decl, hpq, hdecl, hoffers⟩ := (c.isValueType_iff hplain ht).1 h
  rcases hpq.cases_head with rfl | ⟨r, ⟨decl', k, hdecl', hk, hnode⟩, hrq⟩
  · refine ⟨decl, hdecl, hoffers.imp_right ?_⟩
    rintro ⟨k, hk, hkind⟩
    exact ⟨k, hk, (View.meets_of_kindOf hkind).1⟩
  · exact ⟨decl', hdecl', .inr ⟨k, hk, (c.isValueType_iff hplain hnode).2 ⟨q, decl, hrq, hdecl, hoffers⟩⟩⟩

/-- What declares itself a value type has a default constructor. -/
theorem isConstructible_of_declares {decl : ParamDecl} (hplain : c.overrides = [])
    (ht : ts.get? t = some (.param p)) (hdecl : c.definitions.param? p = some decl)
    (h : decl.declares .value) : (c.view ts).isConstructible t := by
  refine (c.isConstructible_iff hplain ht).2 ⟨decl, hdecl, ?_⟩
  simp_all [ParamDecl.declares, Demand.toSpecial]

/-- Some constraint above a parameter that is a value type, or the parameter itself, has a default
constructor: by induction on the path to what makes it a value type. -/
theorem exists_isConstructible (hplain : c.overrides = []) (ht : ts.get? t = some (.param p))
    (h : (c.view ts).isValueType t) : ∃ u, Relation.ReflTransGen (c.ConstrainedBy ts) t u ∧
      (c.view ts).isValueType u ∧ (c.view ts).isConstructible u := by
  obtain ⟨q, decl, hpq, hdecl, hoffers⟩ := (c.isValueType_iff hplain ht).1 h
  induction hpq using Relation.ReflTransGen.head_induction_on generalizing t with
  | refl =>
    rcases hoffers with hdeclares | ⟨k, hk, hkind⟩
    · exact ⟨t, .refl, h, isConstructible_of_declares hplain ht hdecl hdeclares⟩
    · exact ⟨k, .single ⟨_, decl, ht, hdecl, hk⟩, View.meets_of_kindOf hkind⟩
  | head hstep hrq ih =>
    obtain ⟨decl', k, hdecl', hk, hnode⟩ := hstep
    have hvalue := (c.isValueType_iff hplain hnode).2 ⟨q, decl, hrq, hdecl, hoffers⟩
    obtain ⟨u, hku, hu⟩ := ih hnode hvalue
    exact ⟨u, .head ⟨_, decl', ht, hdecl', hk⟩ hku, hu⟩

end Catalog

/-- A value type has a default constructor, unless it is a parameter whose own declaration says neither
`new()` nor that it is a value type, so that it is one by a constraint.  Such constraints lead to a value
type that has a default constructor. -/
theorem constructible_of_value {c : Catalog} {ts : Types} {t : TypeId} (hplain : c.overrides = [])
    (hvalue : (c.view ts).isValueType t) :
    ((c.view ts).isConstructible t ∨ ∃ p decl, ts.get? t = some (.param p) ∧
      c.definitions.param? p = some decl ∧ ¬decl.special.includes .constructible ∧
        ¬decl.special.includes .value ∧ ∃ k ∈ decl.constraints, (c.view ts).isValueType k) ∧
    ∃ u, Relation.ReflTransGen (c.ConstrainedBy ts) t u ∧ (c.view ts).isValueType u ∧
      (c.view ts).isConstructible u := by
  have hnode := Catalog.view_node? hplain ts
  by_cases hparam : ∃ p, ts.get? t = some (.param p)
  · obtain ⟨p, ht⟩ := hparam
    refine ⟨?_, c.exists_isConstructible hplain ht hvalue⟩
    obtain ⟨decl, hdecl, hcases⟩ := c.declares_or_isValueType hplain ht hvalue
    by_cases hdeclares : decl.declares .constructible
    · exact .inl ((c.isConstructible_iff hplain ht).2 ⟨decl, hdecl, hdeclares⟩)
    · obtain ⟨hconstructible, hnot⟩ : ¬decl.special.includes .constructible ∧
          ¬decl.special.includes .value := by
        simpa [ParamDecl.declares, Demand.toSpecial] using hdeclares
      refine .inr ⟨p, decl, ht, hdecl, hconstructible, hnot, hcases.resolve_left fun h => hnot ?_⟩
      simpa [ParamDecl.declares, Demand.toSpecial] using h
  · have hstruct := View.kindOf_of_isValueType hvalue fun p hp => hparam ⟨p, hnode ▸ hp⟩
    have hmeets := (View.meets_of_kindOf hstruct).2
    exact ⟨.inl hmeets, t, .refl, hvalue, hmeets⟩

namespace RingSample

/-- The parameter `T` has no default constructor, but it is led to `V`, which has one. -/
theorem constructible_of_value_ring :
    (catalog.view session.types).isConstructible ⟨0⟩ = false ∧
    (∃ p decl, session.types.get? ⟨0⟩ = some (.param p) ∧ catalog.definitions.param? p = some decl ∧
      ¬decl.special.includes .constructible ∧ ¬decl.special.includes .value ∧
        ∃ k ∈ decl.constraints, (catalog.view session.types).isValueType k) ∧
    ∃ u, Relation.ReflTransGen (catalog.ConstrainedBy session.types) ⟨0⟩ u ∧
      (catalog.view session.types).isValueType u ∧ (catalog.view session.types).isConstructible u := by
  have hplain : catalog.overrides = [] := rfl
  have hvalue : (catalog.view session.types).isValueType ⟨0⟩ := by decide +kernel
  have hnot : (catalog.view session.types).isConstructible ⟨0⟩ = false := by decide +kernel
  obtain ⟨hcases, hleads⟩ := constructible_of_value hplain hvalue
  exact ⟨hnot, hcases.resolve_left (by simp [hnot]), hleads⟩

/-- A parameter that is bounded by a value type, or by a struct, is a value type without a default
constructor. -/
theorem value_but_not_constructible :
    catalog.overrides = [] ∧
    (catalog.view session.types).isValueType ⟨0⟩ ∧ ¬(catalog.view session.types).isConstructible ⟨0⟩ ∧
    (catalog.view session.types).isValueType ⟨4⟩ ∧ ¬(catalog.view session.types).isConstructible ⟨4⟩ := by
  refine ⟨rfl, ?_, ?_, ?_, ?_⟩ <;> decide +kernel

end RingSample

end Generics
