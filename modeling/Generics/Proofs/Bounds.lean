import Generics.Proofs.Construction
import Generics.Proofs.Kinds

/-!
# Arguments within bounds

A parameter lies below its constraints.  Where an argument for it lies below them too, and is a
reference type if the parameter is one, what lies above a type over the parameters lies above it still
when these are replaced by such arguments, and what accepts the type accepts it still.
-/

namespace Generics

variable {c : Catalog} {base ts us : Types} {d g : DefId} {info ginfo : Definition}
  {args xs : List TypeId} {S T U K : Tree} {Ts Xs : List Tree} {p : Param} {decl : ParamDecl}
  {k : TypeId} {f : Param → Tree}

/-! ## Bounds that do not vary -/

namespace Catalog

/-- No constraint of `d` is an application of a variant interface, nor a parameter that one could be
passed for. -/
def BoundedInvariantly (c : Catalog) (ts : Types) (d : DefId) : Prop :=
  ∀ p decl, c.definitions.param? p = some decl → p.owner = d → ∀ k ∈ decl.constraints,
    (c.view ts).variantInterface? k = none ∧
      ((c.view ts).isParam k → ∀ e info, c.definitions.get? e = some info → info.isVariant = false)

instance (c : Catalog) (ts : Types) (d : DefId) : Decidable (c.BoundedInvariantly ts d) :=
  inferInstanceAs (Decidable (∀ _ _, _ → _))

/-- What such a constraint accepts lies below it. -/
theorem BoundedInvariantly.supertype (hplain : c.overrides = []) (h : c.BoundedInvariantly base d)
    (hdecl : c.definitions.param? p = some decl) (hp : p.owner = d) (hk : k ∈ decl.constraints)
    (hK : base.Unfolds k K) (haccepts : Accepts c base (K.subst f) T) :
    Supertype c base T (K.subst f) := by
  obtain ⟨hhead, hparam⟩ := h p decl hdecl hp k hk
  replace haccepts := haccepts.acceptsBy
  generalize heq : K.subst f = V at haccepts ⊢
  cases haccepts with
  | supertype h => exact h
  | @variant _ e info _ _ hinfo hkind hvariant _ _ _ =>
    cases hK with
    | named => simp at heq
    | param hnode =>
      have hisParam : (c.view base).isParam k := by
        rw [View.isParam, view_node? hplain, hnode]
      exact absurd (hvariant.symm.trans (hparam hisParam e info hinfo)) (by decide)
    | app hnode =>
      rw [Tree.subst_app] at heq
      cases heq
      rw [View.variantInterface?, view_node? hplain, hnode] at hhead
      simp [view_definition?, hinfo, hkind, hvariant] at hhead

end Catalog

theorem Takes.supertype (hplain : c.overrides = []) (hd : c.BoundedInvariantly base d)
    (h : Takes c base ts d args Ts (Accepts c base) info) :
    Takes c base ts d args Ts (fun K T => Supertype c base T K) info where
  known := h.known
  arity := h.arity
  specials := h.specials
  constraints i decl T k K hdecl hT hk hK := by
    have hdecl' : c.definitions.param? ⟨d, i⟩ = some decl := by
      rw [Definitions.param?, h.known, Option.bind_some, hdecl]
    exact hd.supertype hplain hdecl' rfl hk hK (h.constraints i decl T k K hdecl hT hk hK)

/-! ## Replacing parameters by arguments -/

/-- A definition takes one argument for each of its parameters. -/
theorem Takes.exists_getElem? {R : Tree → Tree → Prop} (h : Takes c base ts p.owner xs Xs R ginfo)
    (hdecl : c.definitions.param? p = some decl) :
    ∃ X, ginfo.params[p.index]? = some decl ∧ Xs[p.index]? = some X ∧ Tree.assign p.owner Xs p = X := by
  have hdecl' : ginfo.params[p.index]? = some decl := by
    rw [← hdecl, Definitions.param?, h.known, Option.bind_some]
  have hlt : p.index < Xs.length := h.arity ▸ (List.getElem?_eq_some_iff.1 hdecl').1
  have hX := List.getElem?_eq_getElem hlt
  exact ⟨_, hdecl', hX, Tree.assign_of_getElem? hX⟩

/-- What is known of the constraints of a parameter and its argument. -/
theorem Takes.of_constraint {R : Tree → Tree → Prop} (htakes : Takes c base ts g xs Xs R ginfo)
    (hdecl : c.definitions.param? p = some decl) (hp : p.owner = g) (hk : k ∈ decl.constraints)
    (hK : base.Unfolds k K) : R (K.subst (.assign g Xs)) (Tree.assign g Xs p) := by
  subst hp
  obtain ⟨X, hdecl', hX, hassign⟩ := htakes.exists_getElem? hdecl
  rw [hassign]
  exact htakes.constraints p.index decl X k K hdecl' hX hk hK

/-- The types `Xs` can take the place of the parameters of `g`: each lies below the constraints of its
parameter, and reference types over the parameters stay reference types. -/
structure Specialises (c : Catalog) (base : Types) (g : DefId) (Xs : List Tree) : Prop where
  below : ∀ p decl k K, c.definitions.param? p = some decl → p.owner = g → k ∈ decl.constraints →
    base.Unfolds k K → Supertype c base (.assign g Xs p) (K.subst (.assign g Xs))
  reference : ∀ T : Tree, T.Owned c.definitions g → T.Meets c base .reference →
    (T.subst (.assign g Xs)).Meets c base .reference

namespace Specialises

variable (hc : c.Declared base) (h : Specialises c base g Xs)

include hc h

/-- What is right above a parameter is, once specialised, above the argument for it. -/
theorem directSupertype (hS : S.Owned c.definitions g) (hSU : DirectSupertype c base S U) :
    Supertype c base (S.subst (.assign g Xs)) (U.subst (.assign g Xs)) := by
  cases hd : S.definition? with
  | some d => exact .single (hSU.subst hc hS.wellformed (by simp [hd]) _)
  | none =>
    cases hSU with
    | declared hd' => exact absurd (hd'.symm.trans hd) nofun
    | @constraint q decl t T hq hdecl ht hT =>
      subst hq
      rw [Tree.subst_param]
      exact h.below q decl t _ hdecl (hS.owner q (by simp)) ht hT

/-- What lies above a type over the parameters lies above its instance. -/
theorem supertype (hS : S.Owned c.definitions g) (hSU : Supertype c base S U) :
    Supertype c base (S.subst (.assign g Xs)) (U.subst (.assign g Xs)) := by
  induction hSU with
  | refl => exact .refl
  | tail hSU hdirect ih =>
    exact ih.trans (h.directSupertype hc ((hereditary_owned hc g).supertype hS hSU) hdirect)

/-- What accepts a type over the parameters accepts its instance. -/
theorem accepts (hT : T.Owned c.definitions g) (hS : S.Owned c.definitions g)
    (hTS : Accepts c base T S) :
    Accepts c base (T.subst (.assign g Xs)) (S.subst (.assign g Xs)) := by
  refine ⟨fun U V => ∃ T S, U = T.subst (.assign g Xs) ∧ V = S.subst (.assign g Xs) ∧
    T.Owned c.definitions g ∧ S.Owned c.definitions g ∧ Accepts c base T S, ?_, T, S, rfl, rfl, hT, hS,
    hTS⟩
  rintro _ _ ⟨T, S, rfl, rfl, hT, hS, hTS⟩
  cases hTS.acceptsBy with
  | supertype hST => exact .supertype (h.supertype hc hS hST)
  | @variant _ d info Ts Ss hinfo hkind hvariant hSU hlen hargs =>
    have hU := (hereditary_owned hc g).supertype hS hSU
    have habove := h.supertype hc hS hSU
    rw [Tree.subst_app] at habove ⊢
    refine .variant hinfo hkind hvariant habove (by simp [hlen]) fun i v A' B' hv hA' hB' => ?_
    simp only [List.getElem?_map, Option.map_eq_some_iff] at hA' hB'
    obtain ⟨A, hA, rfl⟩ := hA'
    obtain ⟨B, hB, rfl⟩ := hB'
    have hAowned := (hereditary_owned hc g).args hT (List.mem_of_getElem? hA)
    have hBowned := (hereditary_owned hc g).args hU (List.mem_of_getElem? hB)
    cases hargs i v A B hv hA hB with
    | same => exact .same v _
    | covariant hreference hAB =>
      exact .covariant (h.reference B hBowned hreference) ⟨A, B, rfl, rfl, hAowned, hBowned, hAB⟩
    | contravariant hreference hBA =>
      exact .contravariant (h.reference A hAowned hreference) ⟨B, A, rfl, rfl, hBowned, hAowned, hBA⟩

/-- Arguments over the parameters of `g` that meet the constraints of `d` do so as well once the
parameters of `g` are replaced. -/
theorem meetConstraints (hinfo : c.definitions.get? d = some info) (harity : info.arity = Ts.length)
    (hTs : ∀ T ∈ Ts, T.Owned c.definitions g) (hmeets : MeetConstraints base d info Ts (Accepts c base)) :
    MeetConstraints base d info (Ts.map (Tree.subst (.assign g Xs))) (Accepts c base) := by
  intro i decl T' k K hdecl hT' hk hK
  rw [List.getElem?_map, Option.map_eq_some_iff] at hT'
  obtain ⟨T, hT, rfl⟩ := hT'
  have hdecl' : c.definitions.param? ⟨d, i⟩ = some decl := by
    rw [Definitions.param?, hinfo, Option.bind_some, hdecl]
  obtain ⟨K', hK', hwf, hown⟩ := hc.exists_constraint hdecl' hk
  obtain rfl := hK.unique hK'
  rw [← Tree.subst_assign hwf hown hinfo harity]
  exact h.accepts hc (Tree.Owned.subst_assign ⟨hwf, hown⟩ hinfo harity hTs)
    (hTs T (List.mem_of_getElem? hT)) (hmeets i decl T k K hdecl hT hk hK)

end Specialises

end Generics
