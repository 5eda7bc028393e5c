import Generics.Proofs.Supertyping
import Generics.Proofs.Wellformedness

/-!
# Well-declared catalogs

Where every declaration is a well-formed type over the parameters of its own definition, and no
supertype is a bare parameter, specialising commutes with climbing: what lies above an instance are
the instances of what lies above.
-/

namespace Generics

namespace Catalog

/-- The type `t` is well-formed and mentions parameters of `d` only. -/
def Declarable (c : Catalog) (ts : Types) (d : DefId) (t : TypeId) : Prop :=
  (c.view ts).check t = .ok () ∧ ∀ p ∈ (c.view ts).params t, p.owner = d

/-- No shape is replaced, and declarations are well-formed and mention their own definition's
parameters only. -/
structure Declared (c : Catalog) (ts : Types) : Prop where
  plain : c.overrides = []
  supertypes : ∀ d info, c.definitions.get? d = some info → ∀ t ∈ info.supertypes,
    c.Declarable ts d t
  constraints : ∀ p decl, c.definitions.param? p = some decl → ∀ t ∈ decl.constraints,
    c.Declarable ts p.owner t

/-- No shape is replaced, declarations are well-formed and mention their own definition's parameters
only, and no supertype is a bare parameter. -/
structure WellDeclared (c : Catalog) (ts : Types) : Prop where
  plain : c.overrides = []
  supertypes : ∀ d info, c.definitions.get? d = some info → ∀ t ∈ info.supertypes,
    c.Declarable ts d t ∧ (c.view ts).isParam t = false
  constraints : ∀ p decl, c.definitions.param? p = some decl → ∀ t ∈ decl.constraints,
    c.Declarable ts p.owner t

variable {c : Catalog} {base ts : Types} {t : TypeId} {T : Tree} {d : DefId}

theorem Declarable.exists_unfolds (hplain : c.overrides = []) (h : c.Declarable ts d t) :
    ∃ T, ts.Unfolds t T ∧ T.Wellformed c.definitions ∧ ∀ p ∈ T.params, p.owner = d := by
  obtain ⟨T, ht, hT⟩ := (check_eq_ok_iff hplain).1 h.1
  exact ⟨T, ht, hT, fun p hp => h.2 p ((mem_params_iff hplain ht).2 hp)⟩

theorem isParam_iff (hplain : c.overrides = []) (ht : ts.Unfolds t T) :
    (c.view ts).isParam t = false ↔ T.definition?.isSome := by
  rw [View.isParam, view_node? hplain]
  cases ht with
  | named h => simp [h, Tree.definition?]
  | app h => simp [h, Tree.definition?]
  | param h => simp [h, Tree.definition?]

namespace Declared

theorem exists_supertype (hc : c.Declared ts) {info : Definition}
    (hinfo : c.definitions.get? d = some info) (ht : t ∈ info.supertypes) :
    ∃ T, ts.Unfolds t T ∧ T.Wellformed c.definitions ∧ ∀ p ∈ T.params, p.owner = d :=
  (hc.supertypes d info hinfo t ht).exists_unfolds hc.plain

theorem exists_constraint (hc : c.Declared ts) {p : Param} {decl : ParamDecl}
    (hdecl : c.definitions.param? p = some decl) (ht : t ∈ decl.constraints) :
    ∃ T, ts.Unfolds t T ∧ T.Wellformed c.definitions ∧ ∀ q ∈ T.params, q.owner = p.owner :=
  (hc.constraints p decl hdecl t ht).exists_unfolds hc.plain

theorem grounded (hc : c.Declared ts) : c.Grounded ts where
  plain := hc.plain
  supertypes _ _ hinfo _ ht := by
    obtain ⟨T, hT, -⟩ := hc.exists_supertype hinfo ht
    exact ⟨T, hT⟩
  constraints _ _ hdecl _ ht := by
    obtain ⟨T, hT, -⟩ := hc.exists_constraint hdecl ht
    exact ⟨T, hT⟩

end Declared

namespace WellDeclared

theorem declared (hc : c.WellDeclared ts) : c.Declared ts where
  plain := hc.plain
  supertypes d info hinfo t ht := (hc.supertypes d info hinfo t ht).1
  constraints := hc.constraints

theorem exists_supertype (hc : c.WellDeclared ts) {info : Definition}
    (hinfo : c.definitions.get? d = some info) (ht : t ∈ info.supertypes) :
    ∃ T, ts.Unfolds t T ∧ T.Wellformed c.definitions ∧ (∀ p ∈ T.params, p.owner = d) ∧
      T.definition?.isSome := by
  obtain ⟨hdecl, hparam⟩ := hc.supertypes d info hinfo t ht
  obtain ⟨T, hT, hwf, hown⟩ := hdecl.exists_unfolds hc.plain
  exact ⟨T, hT, hwf, hown, (isParam_iff hc.plain hT).1 hparam⟩

theorem exists_constraint (hc : c.WellDeclared ts) {p : Param} {decl : ParamDecl}
    (hdecl : c.definitions.param? p = some decl) (ht : t ∈ decl.constraints) :
    ∃ T, ts.Unfolds t T ∧ T.Wellformed c.definitions ∧ ∀ q ∈ T.params, q.owner = p.owner :=
  hc.declared.exists_constraint hdecl ht

theorem grounded (hc : c.WellDeclared ts) : c.Grounded ts := hc.declared.grounded

end WellDeclared

end Catalog

/-! ## Trees over a definition -/

namespace Tree

variable {ds : Definitions} {S T : Tree} {f : Param → Tree} {d : DefId} {info : Definition}
  {args : List Tree} {p : Param}

theorem definition?_subst (h : S.definition? = some d) : (S.subst f).definition? = some d := by
  cases S with
  | named e => simpa using h
  | app e args =>
    rw [subst_app]
    exact h
  | param p => cases h

theorem args_subst (h : S.definition?.isSome) : (S.subst f).args = S.args.map (subst f) := by
  cases S with
  | named e => simp [Tree.args]
  | app e args =>
    rw [subst_app]
    rfl
  | param p => cases h

theorem definition?_of_subst (hS : S.definition?.isSome) (h : (S.subst f).definition? = some d) :
    S.definition? = some d := by
  obtain ⟨e, he⟩ := Option.isSome_iff_exists.1 hS
  rwa [definition?_subst he, ← he] at h

theorem mem_params_of_mem_args {A : Tree} (hA : A ∈ S.args) (hp : p ∈ A.params) : p ∈ S.params := by
  cases S with
  | named e => cases hA
  | app e args =>
    rw [params_app, List.mem_flatMap]
    exact ⟨A, hA, hp⟩
  | param q => cases hA

theorem Wellformed.arity_eq (h : S.Wellformed ds) (hd : S.definition? = some d)
    (hinfo : ds.get? d = some info) : info.arity = S.args.length := by
  cases h with
  | named h harity =>
    cases hd
    obtain rfl := Option.some.inj (h.symm.trans hinfo)
    exact harity
  | app h harity =>
    cases hd
    obtain rfl := Option.some.inj (h.symm.trans hinfo)
    exact harity
  | param => cases hd

theorem Wellformed.of_mem_args (h : S.Wellformed ds) {A : Tree} (hA : A ∈ S.args) :
    A.Wellformed ds := by
  cases h with
  | named => cases hA
  | app _ _ hargs => exact hargs A hA
  | param => cases hA

theorem assign_of_getElem? {A : Tree} {i : Nat} (h : args[i]? = some A) :
    assign d args ⟨d, i⟩ = A := by
  simp [assign, h]

/-- A well-formed tree over `d` sees arguments of `d` at all its parameters. -/
theorem exists_assign_mem (hT : T.Wellformed ds) (hown : ∀ p ∈ T.params, p.owner = d)
    (hinfo : ds.get? d = some info) (harity : info.arity = args.length) (hp : p ∈ T.params) :
    ∃ A ∈ args, args[p.index]? = some A ∧ assign d args p = A := by
  obtain rfl := hown p hp
  have hlt := index_lt_arity hinfo (hT.isSome_param? hp)
  rw [harity] at hlt
  exact ⟨args[p.index], List.getElem_mem hlt, List.getElem?_eq_getElem hlt,
    assign_of_getElem? (List.getElem?_eq_getElem hlt)⟩

/-- To specialise a tree over `d` and then substitute is to specialise to substituted arguments. -/
theorem subst_assign (hT : T.Wellformed ds) (hown : ∀ p ∈ T.params, p.owner = d)
    (hinfo : ds.get? d = some info) (harity : info.arity = args.length) :
    (T.subst (assign d args)).subst f = T.subst (assign d (args.map (subst f))) := by
  rw [subst_subst]
  refine subst_congr fun p hp => ?_
  obtain ⟨A, -, hget, hA⟩ := exists_assign_mem hT hown hinfo harity hp
  have hp' : p = ⟨d, p.index⟩ := by rw [← hown p hp]
  rw [hA, hp', assign_of_getElem?]
  rw [List.getElem?_map, hget, Option.map_some]

theorem wellformed_subst_assign (hT : T.Wellformed ds) (hown : ∀ p ∈ T.params, p.owner = d)
    (hinfo : ds.get? d = some info) (harity : info.arity = args.length)
    (hargs : ∀ A ∈ args, A.Wellformed ds) : (T.subst (assign d args)).Wellformed ds := by
  refine hT.subst fun p hp => ?_
  obtain ⟨A, hA, -, heq⟩ := exists_assign_mem hT hown hinfo harity hp
  exact heq ▸ hargs A hA

end Tree

/-! ## Climbing and substituting -/

variable {c : Catalog} {base : Types} {S T U V : Tree} {f : Param → Tree} {g : DefId}

namespace DirectSupertype

theorem wellformed_of_declared (hc : c.Declared base) (hS : S.Wellformed c.definitions)
    (h : DirectSupertype c base S U) : U.Wellformed c.definitions := by
  cases h with
  | declared hd hinfo ht hT =>
    obtain ⟨T, hT', hwf, hown⟩ := hc.exists_supertype hinfo ht
    obtain rfl := hT.unique hT'
    exact Tree.wellformed_subst_assign hwf hown hinfo (hS.arity_eq hd hinfo) fun A hA =>
      hS.of_mem_args hA
  | constraint hp hdecl ht hT =>
    obtain ⟨T, hT', hwf, -⟩ := hc.exists_constraint hdecl ht
    obtain rfl := hT.unique hT'
    exact hwf

/-- Only a parameter has a parameter right above it. -/
theorem isSome_definition? (hc : c.WellDeclared base) (hS : S.definition?.isSome)
    (h : DirectSupertype c base S U) : U.definition?.isSome := by
  cases h with
  | declared hd hinfo ht hT =>
    obtain ⟨T, hT', -, -, hsome⟩ := hc.exists_supertype hinfo ht
    obtain rfl := hT.unique hT'
    obtain ⟨e, he⟩ := Option.isSome_iff_exists.1 hsome
    rw [Tree.definition?_subst he]
    rfl
  | constraint hp =>
    rw [hp] at hS
    cases hS

theorem subst (hc : c.Declared base) (hS : S.Wellformed c.definitions)
    (hd : S.definition?.isSome) (h : DirectSupertype c base S U) (f : Param → Tree) :
    DirectSupertype c base (S.subst f) (U.subst f) := by
  cases h with
  | declared hdef hinfo ht hT =>
    obtain ⟨T, hT', hwf, hown⟩ := hc.exists_supertype hinfo ht
    obtain rfl := hT.unique hT'
    rw [Tree.subst_assign hwf hown hinfo (hS.arity_eq hdef hinfo), ← Tree.args_subst hd]
    exact .declared (Tree.definition?_subst hdef) hinfo ht hT
  | constraint hp =>
    rw [hp] at hd
    cases hd

theorem params_subset (hc : c.Declared base) (hS : S.Wellformed c.definitions)
    (hd : S.definition?.isSome) (h : DirectSupertype c base S U) : U.params ⊆ S.params := by
  cases h with
  | declared hdef hinfo ht hT =>
    obtain ⟨T, hT', hwf, hown⟩ := hc.exists_supertype hinfo ht
    obtain rfl := hT.unique hT'
    intro q hq
    obtain ⟨p, hp, hq⟩ := Tree.mem_params_subst.1 hq
    obtain ⟨A, hA, -, heq⟩ := Tree.exists_assign_mem hwf hown hinfo (hS.arity_eq hdef hinfo) hp
    exact Tree.mem_params_of_mem_args hA (heq ▸ hq)
  | constraint hp =>
    rw [hp] at hd
    cases hd

/-- What is right above an instance is an instance of what is right above. -/
theorem exists_of_subst (hc : c.Declared base) (hS : S.Wellformed c.definitions)
    (hd : S.definition?.isSome) (h : DirectSupertype c base (S.subst f) V) :
    ∃ U, DirectSupertype c base S U ∧ V = U.subst f := by
  cases h with
  | declared hdef hinfo ht hT =>
    obtain ⟨T, hT', hwf, hown⟩ := hc.exists_supertype hinfo ht
    obtain rfl := hT.unique hT'
    have hdef := Tree.definition?_of_subst hd hdef
    refine ⟨_, .declared hdef hinfo ht hT, ?_⟩
    rw [Tree.subst_assign hwf hown hinfo (hS.arity_eq hdef hinfo), ← Tree.args_subst hd]
  | constraint hp =>
    obtain ⟨e, he⟩ := Option.isSome_iff_exists.1 hd
    have := Tree.definition?_subst (f := f) he
    rw [hp] at this
    cases this

/-- A supertype mentions no parameters of other definitions. -/
theorem owned (hc : c.Declared base) (hS : S.Wellformed c.definitions)
    (hown : ∀ p ∈ S.params, p.owner = g) (h : DirectSupertype c base S U) :
    ∀ p ∈ U.params, p.owner = g := by
  cases hd : S.definition? with
  | some d => exact fun p hp => hown p (h.params_subset hc hS (by simp [hd]) hp)
  | none =>
    cases h with
    | declared hd' => exact absurd (hd'.symm.trans hd) nofun
    | @constraint q decl t T hq hdecl ht hT =>
      obtain ⟨T', hT', -, hown'⟩ := hc.exists_constraint hdecl ht
      obtain rfl := hT.unique hT'
      have hg : q.owner = g := hown q (by simp [hq])
      exact fun p hp => (hown' p hp).trans hg

end DirectSupertype

namespace Supertype

theorem wellformed_of_declared (hc : c.Declared base) (hS : S.Wellformed c.definitions)
    (h : Supertype c base S U) : U.Wellformed c.definitions := by
  induction h with
  | refl => exact hS
  | tail _ hdirect ih => exact hdirect.wellformed_of_declared hc ih

theorem wellformed (hc : c.WellDeclared base) (hS : S.Wellformed c.definitions)
    (h : Supertype c base S U) : U.Wellformed c.definitions :=
  h.wellformed_of_declared hc.declared hS

theorem isSome_definition? (hc : c.WellDeclared base) (hS : S.definition?.isSome)
    (h : Supertype c base S U) : U.definition?.isSome := by
  induction h with
  | refl => exact hS
  | tail _ hdirect ih => exact hdirect.isSome_definition? hc ih

theorem subst (hc : c.WellDeclared base) (hS : S.Wellformed c.definitions)
    (hd : S.definition?.isSome) (h : Supertype c base S U) (f : Param → Tree) :
    Supertype c base (S.subst f) (U.subst f) := by
  induction h with
  | refl => exact .refl
  | tail hSU hdirect ih =>
    exact ih.tail (hdirect.subst hc.declared (wellformed hc hS hSU) (isSome_definition? hc hd hSU) f)

/-- What lies above an instance is an instance of what lies above. -/
theorem exists_of_subst (hc : c.WellDeclared base) (hS : S.Wellformed c.definitions)
    (hd : S.definition?.isSome) (h : Supertype c base (S.subst f) V) :
    ∃ U, Supertype c base S U ∧ V = U.subst f := by
  induction h with
  | refl => exact ⟨S, .refl, rfl⟩
  | tail _ hdirect ih =>
    obtain ⟨U, hSU, rfl⟩ := ih
    obtain ⟨W, hUW, rfl⟩ :=
      hdirect.exists_of_subst hc.declared (wellformed hc hS hSU) (isSome_definition? hc hd hSU)
    exact ⟨W, hSU.tail hUW, rfl⟩

end Supertype

/-! ## What passes on to supertypes -/

/-- `P` passes from a tree to its arguments and to what lies above it. -/
structure Hereditary (c : Catalog) (base : Types) (P : Tree → Prop) : Prop where
  args : ∀ {S A}, P S → A ∈ S.args → P A
  above : ∀ {S U}, P S → DirectSupertype c base S U → P U

namespace Hereditary

variable {c : Catalog} {base : Types} {P : Tree → Prop} {S T U : Tree} {f : Param → Tree}
  {p : Param}

theorem supertype (hP : Hereditary c base P) (hS : P S) (h : Supertype c base S U) : P U := by
  induction h with
  | refl => exact hS
  | tail _ hdirect ih => exact hP.above ih hdirect

/-- What replaces a parameter is a part of the instance. -/
theorem of_subst (hP : Hereditary c base P) (h : P (T.subst f)) (hp : p ∈ T.params) : P (f p) := by
  induction T using Tree.induct with
  | named d => simp at hp
  | param q =>
    obtain rfl : p = q := by simpa using hp
    simpa using h
  | app d As ih =>
    rw [Tree.params_app, List.mem_flatMap] at hp
    obtain ⟨A, hA, hp⟩ := hp
    rw [Tree.subst_app] at h
    exact ih A hA (hP.args h (List.mem_map_of_mem hA)) hp

end Hereditary

/-- The tree is well-formed and mentions parameters of `g` only. -/
structure Tree.Owned (ds : Definitions) (g : DefId) (T : Tree) : Prop where
  wellformed : T.Wellformed ds
  owner : ∀ p ∈ T.params, p.owner = g

theorem hereditary_owned {c : Catalog} {base : Types} (hc : c.Declared base) (g : DefId) :
    Hereditary c base (Tree.Owned c.definitions g) where
  args h hA := ⟨h.wellformed.of_mem_args hA, fun p hp => h.owner p (Tree.mem_params_of_mem_args hA hp)⟩
  above h hSU := ⟨hSU.wellformed_of_declared hc h.wellformed, hSU.owned hc h.wellformed h.owner⟩

/-- An instance over arguments that `g` owns is owned by `g`. -/
theorem Tree.Owned.subst_assign {ds : Definitions} {d g : DefId} {info : Definition} {args : List Tree}
    {T : Tree} (hT : T.Owned ds d) (hinfo : ds.get? d = some info) (harity : info.arity = args.length)
    (hargs : ∀ A ∈ args, A.Owned ds g) : (T.subst (.assign d args)).Owned ds g where
  wellformed := wellformed_subst_assign hT.wellformed hT.owner hinfo harity fun A hA =>
    (hargs A hA).wellformed
  owner p hp := by
    obtain ⟨q, hq, hp⟩ := mem_params_subst.1 hp
    obtain ⟨A, hA, -, heq⟩ := exists_assign_mem hT.wellformed hT.owner hinfo harity hq
    exact (hargs A hA).owner p (heq ▸ hp)

end Generics
