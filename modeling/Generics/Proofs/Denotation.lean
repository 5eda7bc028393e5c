import Generics.Proofs.Assignability
import Generics.Proofs.Exploration
import Generics.Proofs.Matching
import Generics.Proofs.Outcomes

/-!
# What unification comes to

Of the supertypes of a type, inference takes the first that matches a constraint, so the outcome of a
unification depends on the order in which it goes through them.  This file defines the outcomes on trees
for any such order, and shows that matching in a store is matching of trees.  Bindings remember their
order, because parameters are expanded in that order.
-/

namespace Generics

/-! ## Bindings -/

/-- Parameters that are bound, in order, and what they are bound to. -/
@[ext]
structure Bindings where
  domain : List Param
  image : Param → Tree
  /-- A parameter that is not bound stands for itself. -/
  unbound : ∀ p ∉ domain, image p = .param p

namespace Bindings

variable {free : List Param} {E E' E'' : Bindings} {As Bs : List Tree} {p : Param}

def empty : Bindings := ⟨[], .param, fun _ _ => rfl⟩

/-- Bind one more parameter. -/
def insert (E : Bindings) (p : Param) (X : Tree) : Bindings where
  domain := E.domain ++ [p]
  image q := if q = p then X else E.image q
  unbound q hq := by
    rw [List.mem_append, List.mem_singleton, not_or] at hq
    rw [if_neg hq.2]
    exact E.unbound q hq.1

/-- Where only free parameters are bound, others stand for themselves. -/
theorem rigid_image (hE : E.domain ⊆ free) : Rigid free E.image := fun p hp =>
  E.unbound p fun hmem => hp (hE hmem)

/-- What `E'` adds to `E` when the patterns `As` are matched with `Bs`: their free parameters, in order
of first occurrence, so that the patterns become `Bs`. -/
structure Matches (free : List Param) (E : Bindings) (As Bs : List Tree) (E' : Bindings) : Prop where
  domain : E'.domain =
    View.Mentions.appendNew E.domain ((As.flatMap Tree.params).filter (· ∈ free))
  image : ∀ p ∈ E.domain, E'.image p = E.image p
  solves : As.map (Tree.subst E'.image) = Bs

theorem Matches.mem_domain_iff (h : E.Matches free As Bs E') :
    p ∈ E'.domain ↔ p ∈ E.domain ∨ FreeIn free As p := by
  rw [h.domain, View.Mentions.mem_appendNew, List.mem_filter, List.mem_flatMap, decide_eq_true_iff,
    FreeIn, and_comm (a := p ∈ free)]

theorem Matches.domain_subset (h : E.Matches free As Bs E') (hE : E.domain ⊆ free) :
    E'.domain ⊆ free := fun _ hp => (h.mem_domain_iff.1 hp).elim (@hE _) And.left

/-- Matching gives one answer. -/
theorem Matches.unique (h : E.Matches free As Bs E') (h' : E.Matches free As Bs E'') : E' = E'' := by
  have hdomain := h.domain.trans h'.domain.symm
  refine Bindings.ext hdomain (funext fun p => ?_)
  by_cases hp : p ∈ E'.domain
  · rcases h.mem_domain_iff.1 hp with hE | ⟨-, A, hA, hpA⟩
    · rw [h.image p hE, h'.image p hE]
    · exact Tree.eq_of_subst_eq (List.map_inj_left.1 (h.solves.trans h'.solves.symm) A hA) hpA
  · rw [E'.unbound p hp, E''.unbound p (hdomain ▸ hp)]

end Bindings

/-- `σ` binds the parameters that `E` does, in the same order, and its types are the trees of `E`. -/
structure Substitution.Binds (ts : Types) (σ : Substitution) (E : Bindings) : Prop where
  domain : σ.domain = E.domain
  unfolds : σ.Unfolds ts E.image

namespace Substitution

variable {ts us : Types} {σ : Substitution} {E E' : Bindings} {p : Param} {t : TypeId} {X : Tree}

theorem binds_empty (ts : Types) : empty.Binds ts .empty := ⟨rfl, unfolds_empty ts⟩

theorem Binds.grow (h : σ.Binds ts E) (hgrow : ts.Grows us) : σ.Binds us E :=
  ⟨h.domain, h.unfolds.grow hgrow⟩

theorem Binds.contains_iff (h : σ.Binds ts E) : σ.contains p ↔ p ∈ E.domain := by
  rw [contains_iff_mem_domain, h.domain]

theorem Binds.mem_domain (h : σ.Binds ts E) (ht : σ.get? p = some t) : p ∈ E.domain :=
  h.contains_iff.1 (contains_of_get? ht)

theorem Binds.image_eq (h : σ.Binds ts E) (ht : σ.get? p = some t) (hX : ts.Unfolds t X) :
    E.image p = X :=
  ((h.unfolds p).1 t ht).unique hX

theorem Binds.insert (h : σ.Binds ts E) (hnew : ¬σ.contains p) (ht : ts.Unfolds t X) :
    (σ.insert p t).Binds ts (E.insert p X) where
  domain := by
    rw [insert_of_not_contains hnew, Substitution.domain, List.map_append]
    exact congrArg (· ++ [p]) h.domain
  unfolds q := by
    rw [get?_insert]
    simp only [Bindings.insert]
    split
    · rename_i hq
      exact ⟨fun u hu => Option.some.inj hu ▸ ht, fun hnone => absurd hnone (Option.some_ne_none t)⟩
    · exact h.unfolds q

theorem Binds.unique (h : σ.Binds ts E) (h' : σ.Binds ts E') : E = E' := by
  refine Bindings.ext (h.domain.symm.trans h'.domain) (funext fun p => ?_)
  cases hp : σ.get? p with
  | some t => exact ((h.unfolds p).1 t hp).unique ((h'.unfolds p).1 t hp)
  | none => rw [(h.unfolds p).2 hp, (h'.unfolds p).2 hp]

/-- Bindings to types that unfold are bindings to trees. -/
theorem Unfolds.exists_binds {f : Param → Tree} (h : σ.Unfolds ts f) :
    ∃ E, E.image = f ∧ σ.Binds ts E := by
  refine ⟨⟨σ.domain, f, fun p hp => (h p).2 ?_⟩, rfl, rfl, h⟩
  rw [← contains_iff_mem_domain] at hp
  exact Option.not_isSome_iff_eq_none.1 hp

end Substitution

/-! ## Matching in a store -/

section

variable {c : Catalog} {ts : Types} {free : List Param} {As Bs : List Tree} {as bs : List TypeId}
  {σ τ : Substitution} {E : Bindings}

namespace Catalog

/-- Matching types is matching their trees. -/
theorem matches_of_matchAll_eq_ok (hplain : c.overrides = []) (has : List.Forall₂ ts.Unfolds as As)
    (hbs : List.Forall₂ ts.Unfolds bs Bs) (hlen : bs.length = as.length) (hσ : σ.Binds ts E)
    (hE : E.domain ⊆ free) (h : (c.view ts).matchAll free σ as bs = .ok τ) :
    ∃ E', E.Matches free As Bs E' ∧ τ.Binds ts E' := by
  obtain ⟨hext, hsolves⟩ := of_matchAll_eq_ok hplain has hbs hlen h
  obtain ⟨f, hf⟩ := Substitution.exists_unfolds_of_extends hσ.unfolds hext
  obtain ⟨E', rfl, hτ⟩ := hf.exists_binds
  have hdomain : E'.domain =
      View.Mentions.appendNew E.domain ((As.flatMap Tree.params).filter (· ∈ free)) := by
    rw [← hτ.domain, ← hσ.domain, domain_matchAll hplain has hbs hlen h]
  refine ⟨E', ⟨hdomain, fun p hp => ?_, hsolves.map_subst_eq hf.agrees
    (Bindings.rigid_image fun p hp => ?_)⟩, hτ⟩
  · exact ((hf.agrees.of_extends hext).eq_of_contains hσ.unfolds.agrees (hσ.contains_iff.2 hp))
  · rw [hdomain, View.Mentions.mem_appendNew, List.mem_filter] at hp
    exact hp.elim (@hE p) fun h => by simpa using h.2

theorem exists_matchAll_eq_ok_of_matches {E' : Bindings} (hplain : c.overrides = [])
    (has : List.Forall₂ ts.Unfolds as As) (hbs : List.Forall₂ ts.Unfolds bs Bs) (hσ : σ.Binds ts E)
    (hE : E.domain ⊆ free) (h : E.Matches free As Bs E') :
    ∃ τ, (c.view ts).matchAll free σ as bs = .ok τ := by
  have hrigid : Rigid free E'.image := Bindings.rigid_image (h.domain_subset hE)
  have hagrees : σ.Agrees ts E'.image := fun p t ht => by
    rw [h.image p (hσ.mem_domain ht)]
    exact (hσ.unfolds p).1 t ht
  obtain ⟨τ, hτ, -⟩ := exists_matchAll_eq_ok hplain has (h.solves ▸ hbs) hagrees hrigid
  exact ⟨τ, hτ⟩

end Catalog

/-- The arguments of an application of `d` to `n` arguments. -/
def Tree.argsAs? (d : DefId) (n : Nat) : Tree → Option (List Tree)
  | .app e Ts => if e = d ∧ Ts.length = n then some Ts else none
  | _ => none

theorem Tree.argsAs?_eq_some_iff {d : DefId} {n : Nat} {T : Tree} {Ts : List Tree} :
    T.argsAs? d n = some Ts ↔ T = .app d Ts ∧ Ts.length = n := by
  cases T with
  | named => simp [argsAs?]
  | param => simp [argsAs?]
  | app e Us =>
    simp only [argsAs?, Option.ite_none_right_eq_some, Option.some.injEq, Tree.app.injEq]
    constructor
    · rintro ⟨⟨rfl, hlen⟩, rfl⟩
      exact ⟨⟨rfl, rfl⟩, hlen⟩
    · rintro ⟨⟨rfl, rfl⟩, hlen⟩
      exact ⟨⟨rfl, hlen⟩, rfl⟩

/-- The arguments of a type are those of its tree. -/
theorem Catalog.rel_argsAs? {t : TypeId} {X : Tree} (hplain : c.overrides = [])
    (hX : ts.Unfolds t X) (d : DefId) (n : Nat) :
    Option.Rel (List.Forall₂ ts.Unfolds) ((c.view ts).argsAs? d n t) (X.argsAs? d n) := by
  cases htree : X.argsAs? d n with
  | none =>
    suffices hnone : (c.view ts).argsAs? d n t = none by
      rw [hnone]
      exact .none
    refine Option.eq_none_iff_forall_ne_some.2 fun args hargs => ?_
    obtain ⟨Xs, heq, hlen, -⟩ := (c.argsAs?_eq_some_iff hplain hX).1 hargs
    rw [Tree.argsAs?_eq_some_iff.2 ⟨heq, hlen⟩] at htree
    cases htree
  | some Xs =>
    obtain ⟨rfl, hlen⟩ := Tree.argsAs?_eq_some_iff.1 htree
    obtain ⟨args, -, hargs⟩ := hX.exists_app
    rw [(c.argsAs?_eq_some_iff hplain hX).2 ⟨Xs, rfl, hlen, hargs⟩]
    exact .some hargs

end

/-! ## Expanding constraints -/

/-- What inference reads of declarations. -/
structure Hierarchy where
  /-- What lies above a type, in the order in which one comes across it. -/
  Order : Tree → List Tree → Prop
  /-- What constrains a parameter. -/
  constraints : Param → List Tree

open scoped Classical in
/-- The tree of a type; a type without one gets any. -/
noncomputable def Types.tree (ts : Types) (t : TypeId) : Tree :=
  if h : ∃ T, ts.Unfolds t T then h.choose else default

theorem Types.Unfolds.tree_eq {ts : Types} {t : TypeId} {T : Tree} (h : ts.Unfolds t T) :
    ts.tree t = T := by
  have hex : ∃ T, ts.Unfolds t T := ⟨T, h⟩
  rw [Types.tree, dif_pos hex]
  exact hex.choose_spec.unique h

/-- The declarations of the catalog, over the types `base`. -/
noncomputable def Catalog.hierarchy (c : Catalog) (base : Types) : Hierarchy where
  Order X Ts := DepthFirst c base [] [X] Ts
  constraints p := (((c.definitions.param? p).map (·.constraints)).getD []).map base.tree

theorem Catalog.constraints_hierarchy (c : Catalog) (base : Types) (p : Param) :
    (c.hierarchy base).constraints p =
      (((c.definitions.param? p).map (·.constraints)).getD []).map base.tree :=
  rfl

/-- The patterns `As` are matched with `Bs`. -/
def Bindings.matching (free : List Param) (As Bs : List Tree) : Outcomes Bindings
  | some E => empty.Matches free As Bs E
  | none => ¬∃ E, empty.Matches free As Bs E

/-- From `E`, the patterns `As` are matched with the first of the lists `Bss` that they match, and nothing
is bound if there is none. -/
inductive Bindings.MatchesFirst (free : List Param) (E : Bindings) (As : List Tree) :
    List (List Tree) → Bindings → Prop
  | nil : MatchesFirst free E As [] E
  | here {Bs : List Tree} {Bss : List (List Tree)} {E' : Bindings} (h : E.Matches free As Bs E') :
      MatchesFirst free E As (Bs :: Bss) E'
  | later {Bs : List Tree} {Bss : List (List Tree)} {E' : Bindings}
      (hnone : ∀ E'', ¬E.Matches free As Bs E'') (h : MatchesFirst free E As Bss E') :
      MatchesFirst free E As (Bs :: Bss) E'

namespace Bindings.MatchesFirst

variable {free : List Param} {E E' E'' : Bindings} {As : List Tree} {Bss : List (List Tree)}

theorem unique (h : E.MatchesFirst free As Bss E') (h' : E.MatchesFirst free As Bss E'') : E' = E'' := by
  induction h with
  | nil =>
    cases h'
    rfl
  | here h =>
    cases h' with
    | here h' => exact h.unique h'
    | later hnone => exact absurd h (hnone _)
  | later hnone _ ih =>
    cases h' with
    | here h' => exact absurd h' (hnone _)
    | later _ h' => exact ih h'

theorem eq_or_matches (h : E.MatchesFirst free As Bss E') :
    E' = E ∨ ∃ Bs ∈ Bss, E.Matches free As Bs E' := by
  induction h with
  | nil => exact .inl rfl
  | here h => exact .inr ⟨_, List.mem_cons_self .., h⟩
  | later _ _ ih =>
    exact ih.imp id fun ⟨Bs, hBs, h⟩ => ⟨Bs, List.mem_cons_of_mem _ hBs, h⟩

end Bindings.MatchesFirst

/-- What is found by matching `As` with one of `Bss`; there must be one. -/
def Bindings.matchingOneOf (free : List Param) (E : Bindings) (As : List Tree) (Bss : List (List Tree)) :
    Outcomes Bindings
  | some E' => Bss ≠ [] ∧ E.MatchesFirst free As Bss E'
  | none => Bss = []

namespace Hierarchy

variable (L : Hierarchy) (free : List Param)

/-- Bind free parameters of the constraint `K` from the type `X` that it constrains: if it is an
application, from the first application of its definition above `X` that matches. -/
def infer (K X : Tree) (E : Bindings) : Outcomes Bindings :=
  match K with
  | .named _ => pure E
  | .param q => pure (if q ∈ free ∧ q ∉ E.domain then E.insert q X else E)
  | .app d As => fun o => ∃ Ts, L.Order X Ts ∧
      E.matchingOneOf free As (Ts.filterMap (Tree.argsAs? d As.length)) o

variable (f : Param → Tree)

/-- Expand the constraint `K` of a parameter that is bound to `X`, when `expand` expands parameters that
it binds. -/
def expandOne (expand : Bindings → Param → Outcomes Bindings) (X : Tree) (E : Bindings) (K : Tree) :
    Outcomes Bindings :=
  if ∃ q ∈ free, q ∈ (K.subst f).params then do
    let E' ← L.infer free (K.subst f) X E
    (E'.domain.drop E.domain.length).foldlM expand E'
  else pure E

/-- Expand the constraints of `p`, specialised by `f`. -/
def expandEach (expand : Bindings → Param → Outcomes Bindings) (E : Bindings) (p : Param) :
    Outcomes Bindings :=
  if p ∈ E.domain then (L.constraints p).foldlM (L.expandOne free f expand (E.image p)) E else pure E

/-- Expand the constraints of `p`, unless it is among the parameters that are being expanded. -/
def expandTo : Nat → List Param → Bindings → Param → Outcomes Bindings
  | 0, _, _, _ => fun o => o = none
  | n + 1, visiting, E, p =>
    if p ∈ visiting then pure E else L.expandEach free f (expandTo n (p :: visiting)) E p

/-- Bind free parameters so that the patterns `As` become `Bs`, and then those that constraints lead
to. -/
def unify (As Bs : List Tree) : Outcomes Bindings := do
  let E ← Bindings.matching free As Bs
  E.domain.foldlM (L.expandTo free f (free.length + 1) []) E

end Hierarchy

end Generics
