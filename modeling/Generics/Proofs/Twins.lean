import Generics.Assignable
import Generics.Proofs.Examination
import Generics.Proofs.Instantiation
import Generics.Proofs.Promises
import Mathlib.Logic.Relator

/-!
# Twins

Two stores give the same type different handles.  Such handles are twins: written out in full they are
one tree.  Where two catalogs coincide on the definitions that a tree mentions, whatever is read of it
in one store is read of its twin in the other.
-/

namespace Generics

variable {K : DefId → Prop} {base ts us ts' us' : Types} {t u : TypeId} {as bs : List TypeId}

/-- `t` in `ts` and `u` in `us` are the same tree, over definitions of which `K` holds. -/
def Twin (K : DefId → Prop) (ts us : Types) (t u : TypeId) : Prop :=
  ∃ T : Tree, T.Over K ∧ ts.Unfolds t T ∧ us.Unfolds u T

theorem Twin.grow (h : Twin K ts us t u) (hts : ts.Grows ts') (hus : us.Grows us') :
    Twin K ts' us' t u := by
  obtain ⟨T, hT, ht, hu⟩ := h
  exact ⟨T, hT, ht.grow hts, hu.grow hus⟩

theorem forall₂_twin_grow (h : List.Forall₂ (Twin K ts us) as bs) (hts : ts.Grows ts')
    (hus : us.Grows us') : List.Forall₂ (Twin K ts' us') as bs :=
  h.imp fun _ _ h => h.grow hts hus

/-- Handles are equal exactly if their twins are. -/
theorem twin_biUnique (K : DefId → Prop) (ts us : Types) : Relator.BiUnique (Twin K ts us) := by
  constructor
  · rintro a b c ⟨T, -, ha, hc⟩ ⟨U, -, hb, hc'⟩
    exact ha.inj (hc.unique hc' ▸ hb)
  · rintro a b c ⟨T, -, ha, hb⟩ ⟨U, -, ha', hc⟩
    exact hb.inj (ha.unique ha' ▸ hc)

theorem forall₂_twin {Ts : List Tree} (hTs : ∀ T ∈ Ts, T.Over K)
    (has : List.Forall₂ ts.Unfolds as Ts) (hbs : List.Forall₂ us.Unfolds bs Ts) :
    List.Forall₂ (Twin K ts us) as bs :=
  (forall₂_of_common has hbs).imp fun _ _ ⟨T, hT, ha, hb⟩ => ⟨T, hTs T hT, ha, hb⟩

theorem exists_trees (h : List.Forall₂ (Twin K ts us) as bs) : ∃ Ts : List Tree,
    (∀ T ∈ Ts, T.Over K) ∧ List.Forall₂ ts.Unfolds as Ts ∧ List.Forall₂ us.Unfolds bs Ts := by
  induction h with
  | nil => exact ⟨[], by simp, .nil, .nil⟩
  | cons hab _ ih =>
    obtain ⟨T, hT, ha, hb⟩ := hab
    obtain ⟨Ts, hTs, has, hbs⟩ := ih
    exact ⟨T :: Ts, List.forall_mem_cons.2 ⟨hT, hTs⟩, .cons ha has, .cons hb hbs⟩

/-- Nodes that differ in arguments only, and those correspond. -/
inductive Node.Twin (K : DefId → Prop) (R : TypeId → TypeId → Prop) : Node → Node → Prop
  | named {d : DefId} (h : K d) : Node.Twin K R (.named d) (.named d)
  | app {d : DefId} {args args' : List TypeId} (h : K d) (hargs : List.Forall₂ R args args') :
      Node.Twin K R (.app d args) (.app d args')
  | param {p : Param} (h : K p.owner) : Node.Twin K R (.param p) (.param p)

theorem Twin.exists_node (h : Twin K ts us t u) : ∃ n n', ts.get? t = some n ∧ us.get? u = some n' ∧
    n.Twin K (Twin K ts us) n' := by
  obtain ⟨T, hT, ht, hu⟩ := h
  cases hT with
  | named hd =>
    cases ht with | named ht =>
    cases hu with | named hu =>
    exact ⟨_, _, ht, hu, .named hd⟩
  | param hp =>
    cases ht with | param ht =>
    cases hu with | param hu =>
    exact ⟨_, _, ht, hu, .param hp⟩
  | app hd hTs =>
    cases ht with | app ht has =>
    cases hu with | app hu hbs =>
    exact ⟨_, _, ht, hu, .app hd (forall₂_twin hTs has hbs)⟩

/-! ## Substitutions -/

namespace Substitution

variable {σ τ : Substitution} {p : Param} {d : DefId}

/-- Both map the same parameters in the same order, to twins, and `K` holds of the parameters'
definitions. -/
def Twin (K : DefId → Prop) (ts us : Types) (σ τ : Substitution) : Prop :=
  List.Forall₂ (fun e e' => e.1 = e'.1 ∧ K e.1.owner ∧ Generics.Twin K ts us e.2 e'.2) σ.entries
    τ.entries

theorem twin_empty (K : DefId → Prop) (ts us : Types) : empty.Twin K ts us empty := .nil

theorem Twin.grow (h : σ.Twin K ts us τ) (hts : ts.Grows ts') (hus : us.Grows us') :
    σ.Twin K ts' us' τ :=
  List.Forall₂.imp (fun _ _ h => ⟨h.1, h.2.1, h.2.2.grow hts hus⟩) h

theorem Twin.size_eq (h : σ.Twin K ts us τ) : τ.size = σ.size := (List.Forall₂.length_eq h).symm

theorem Twin.domain_eq (h : σ.Twin K ts us τ) : τ.domain = σ.domain := by
  rw [domain, domain, ← List.forall₂_eq_eq_eq, List.forall₂_map_left_iff, List.forall₂_map_right_iff]
  exact List.Forall₂.flip (h.imp fun _ _ h => h.1.symm)

theorem Twin.get? (h : σ.Twin K ts us τ) (p : Param) :
    Option.Rel (Generics.Twin K ts us) (σ.get? p) (τ.get? p) := by
  unfold Twin at h
  unfold Substitution.get?
  generalize σ.entries = es at h
  generalize τ.entries = es' at h
  induction h with
  | nil => exact .none
  | @cons e e' _ _ hee _ ih =>
    obtain ⟨q, t⟩ := e
    obtain ⟨q', u⟩ := e'
    obtain ⟨rfl, -, htu⟩ := hee
    rw [List.lookup_cons, List.lookup_cons]
    cases p == q with
    | true => exact .some htu
    | false => exact ih

theorem Twin.owner (h : σ.Twin K ts us τ) (hp : p ∈ σ.domain) : K p.owner := by
  obtain ⟨e, he, rfl⟩ := List.mem_map.1 hp
  obtain ⟨e', -, -, hK, -⟩ := exists_of_mem_left h he
  exact hK

theorem Twin.contains_eq (h : σ.Twin K ts us τ) (p : Param) : τ.contains p = σ.contains p := by
  rw [Bool.eq_iff_iff, contains_iff_mem_domain, contains_iff_mem_domain, h.domain_eq]

theorem Twin.insert (h : σ.Twin K ts us τ) (hp : K p.owner) (htu : Generics.Twin K ts us t u) :
    (σ.insert p t).Twin K ts us (τ.insert p u) := by
  unfold Twin at h ⊢
  unfold Substitution.insert
  generalize σ.entries = es at h
  generalize τ.entries = es' at h
  induction h with
  | nil => exact .cons ⟨rfl, hp, htu⟩ .nil
  | @cons e e' _ _ hee hrest ih =>
    obtain ⟨q, t'⟩ := e
    obtain ⟨q', u'⟩ := e'
    obtain ⟨rfl, hq, htu'⟩ := hee
    simp only [insertEntry]
    split
    · exact .cons ⟨rfl, hp, htu⟩ hrest
    · exact .cons ⟨rfl, hq, htu'⟩ ih

theorem twin_ofArgs (hd : K d) (h : List.Forall₂ (Generics.Twin K ts us) as bs) :
    (ofArgs d as).Twin K ts us (ofArgs d bs) := by
  refine forall₂_of_getElem? (by simp [ofArgs, h.length_eq]) fun i e e' he he' => ?_
  simp only [ofArgs, List.getElem?_mapIdx, Option.map_eq_some_iff] at he he'
  obtain ⟨a, ha, rfl⟩ := he
  obtain ⟨b, hb, rfl⟩ := he'
  obtain ⟨b', hb', hab⟩ := exists_getElem?_of_forall₂ h ha
  obtain rfl := Option.some.inj (hb.symm.trans hb')
  exact ⟨rfl, hd, hab⟩

/-- Twin substitutions are one substitution of trees. -/
theorem Twin.exists_unfolds (h : σ.Twin K ts us τ) :
    ∃ f, σ.Unfolds ts f ∧ τ.Unfolds us f ∧ ∀ p, K p.owner → (f p).Over K := by
  have himage : ∀ p, ∃ T : Tree, ((∀ t, σ.get? p = some t → ts.Unfolds t T) ∧
      (σ.get? p = none → T = .param p)) ∧ ((∀ u, τ.get? p = some u → us.Unfolds u T) ∧
      (τ.get? p = none → T = .param p)) ∧ (K p.owner → T.Over K) := by
    intro p
    have hp := h.get? p
    revert hp
    generalize σ.get? p = a
    generalize τ.get? p = b
    rintro (⟨T, hT, ht, hu⟩ | _)
    · refine ⟨T, ⟨fun _ h => Option.some.inj h ▸ ht, nofun⟩,
        ⟨fun _ h => Option.some.inj h ▸ hu, nofun⟩, fun _ => hT⟩
    · exact ⟨.param p, ⟨nofun, fun _ => rfl⟩, ⟨nofun, fun _ => rfl⟩, .param⟩
  choose f hf using himage
  exact ⟨f, fun p => (hf p).1, fun p => (hf p).2.1, fun p => (hf p).2.2⟩

end Substitution

/-! ## Catalogs that coincide -/

namespace Catalog

variable {c c' : Catalog} {d : DefId}

/-- The catalogs have the same definitions where `K` holds, and what these mention is in `base` and
again over such definitions. -/
structure Coincide (c c' : Catalog) (K : DefId → Prop) (base : Types) : Prop where
  plain : c.overrides = []
  plain' : c'.overrides = []
  definitions : ∀ d, K d → c'.definitions.get? d = c.definitions.get? d
  supertypes : ∀ d info, K d → c.definitions.get? d = some info → ∀ t ∈ info.supertypes,
    Twin K base base t t
  constraints : ∀ p decl, K p.owner → c.definitions.param? p = some decl → ∀ t ∈ decl.constraints,
    Twin K base base t t

/-- Every catalog coincides with itself. -/
theorem Grounded.coincide (hc : c.Grounded base) : c.Coincide c (fun _ => True) base where
  plain := hc.plain
  plain' := hc.plain
  definitions _ _ := rfl
  supertypes d info _ hd t ht :=
    (hc.supertypes d info hd t ht).imp fun T hT => ⟨T.over_true, hT, hT⟩
  constraints p decl _ hp t ht :=
    (hc.constraints p decl hp t ht).imp fun T hT => ⟨T.over_true, hT, hT⟩

namespace Coincide

variable (hc : c.Coincide c' K base)

include hc

theorem param?_eq {p : Param} (h : K p.owner) :
    (c'.view us).param? p = c.definitions.param? p :=
  View.param?_eq (v := c.view us) (fun d hd => hc.definitions d hd) h

theorem exists_nodes (h : Twin K ts us t u) : ∃ n n', (c.view ts).node? t = some n ∧
    (c'.view us).node? u = some n' ∧ n.Twin K (Twin K ts us) n' := by
  rw [view_node? hc.plain, view_node? hc.plain']
  exact h.exists_node

theorem forall₂_argsOf (h : Twin K ts us t u) :
    List.Forall₂ (Twin K ts us) ((c.view ts).argsOf t) ((c'.view us).argsOf u) := by
  obtain ⟨n, n', hn, hn', hnode⟩ := hc.exists_nodes h
  simp only [View.argsOf, hn, hn']
  cases hnode with
  | named => exact .nil
  | param => exact .nil
  | app _ hargs => exact hargs

theorem isApplicationOf_eq (h : Twin K ts us t u) (d : DefId) :
    (c'.view us).isApplicationOf d u = (c.view ts).isApplicationOf d t := by
  obtain ⟨n, n', hn, hn', hnode⟩ := hc.exists_nodes h
  simp only [View.isApplicationOf, hn, hn']
  cases hnode <;> rfl

theorem params_eq (h : Twin K ts us t u) : (c'.view us).params u = (c.view ts).params t := by
  obtain ⟨T, -, ht, hu⟩ := h
  rw [Catalog.params_eq hc.plain ht, Catalog.params_eq hc.plain' hu]

theorem mentionsAny_eq (h : Twin K ts us t u) (ps : List Param) :
    (c'.view us).mentionsAny u ps = (c.view ts).mentionsAny t ps := by
  obtain ⟨T, -, ht, hu⟩ := h
  rw [Bool.eq_iff_iff, Catalog.mentionsAny_iff hc.plain' hu, Catalog.mentionsAny_iff hc.plain ht]

/-- What is declared above twins is the same, and specialised alike. -/
theorem declaredSupertypes (h : Twin K ts us t u) :
    ((c.view ts).declaredSupertypes t).1.Twin K ts us ((c'.view us).declaredSupertypes u).1 ∧
    ((c'.view us).declaredSupertypes u).2 = ((c.view ts).declaredSupertypes t).2 ∧
    ∀ k ∈ ((c.view ts).declaredSupertypes t).2, Twin K base base k k := by
  obtain ⟨n, n', hn, hn', hnode⟩ := hc.exists_nodes h
  have hdeclared : ∀ d, K d → ∀ k ∈ ((c.definitions.get? d).map (·.supertypes)).getD [],
      Twin K base base k k := by
    intro d hd k hk
    cases hinfo : c.definitions.get? d with
    | none => simp [hinfo] at hk
    | some info => exact hc.supertypes d info hd hinfo k (by simpa [hinfo] using hk)
  simp only [View.declaredSupertypes, hn, hn']
  cases hnode with
  | named hd =>
    simp only [view_definition?, hc.definitions _ hd]
    exact ⟨Substitution.twin_empty .., trivial, hdeclared _ hd⟩
  | app hd hargs =>
    simp only [view_definition?, hc.definitions _ hd]
    exact ⟨Substitution.twin_ofArgs hd hargs, trivial, hdeclared _ hd⟩
  | @param p hp =>
    simp only [hc.param?_eq hp, view_param?]
    refine ⟨Substitution.twin_empty .., trivial, fun k hk => ?_⟩
    cases hdecl : c.definitions.param? p with
    | none => simp [hdecl] at hk
    | some decl => exact hc.constraints p decl hp hdecl k (by simpa [hdecl] using hk)

theorem variantInterface? (h : Twin K ts us t u) :
    Option.Rel (fun i i' => i.1 = i'.1 ∧ i.2.1 = i'.2.1 ∧ List.Forall₂ (Twin K ts us) i.2.2 i'.2.2)
      ((c.view ts).variantInterface? t) ((c'.view us).variantInterface? u) := by
  obtain ⟨n, n', hn, hn', hnode⟩ := hc.exists_nodes h
  simp only [View.variantInterface?, hn, hn']
  cases hnode with
  | named => exact .none
  | param => exact .none
  | @app d args args' hd hargs =>
    simp only [view_definition?, hc.definitions _ hd]
    cases c.definitions.get? d with
    | none => exact .none
    | some info =>
      dsimp only
      split
      · exact .some ⟨rfl, rfl, hargs⟩
      · exact .none

theorem argsAs? (d : DefId) (arity : Nat) (h : Twin K ts us t u) :
    Option.Rel (List.Forall₂ (Twin K ts us)) ((c.view ts).argsAs? d arity t)
      ((c'.view us).argsAs? d arity u) := by
  obtain ⟨n, n', hn, hn', hnode⟩ := hc.exists_nodes h
  simp only [View.argsAs?, hn, hn']
  cases hnode with
  | named => exact .none
  | param => exact .none
  | @app e args args' hd hargs =>
    simp only [← hargs.length_eq]
    split
    · exact .some hargs
    · exact .none

variable (hts : base.Grows ts) (hus : base.Grows us)

include hts hus

theorem meets_eq (h : Twin K ts us t u) (d : Demand) :
    (c'.view us).meets d u = (c.view ts).meets d t := by
  obtain ⟨n, n', hn, hn', hnode⟩ := hc.exists_nodes h
  simp only [View.meets, hn, hn']
  have hprovides : ∀ e, K e → (c'.view us).definition? e = (c.view ts).definition? e :=
    fun e he => hc.definitions e he
  cases hnode with
  | named hd => simp only [View.provides, Node.definition?, Option.bind_some, hprovides _ hd]
  | app hd => simp only [View.provides, Node.definition?, Option.bind_some, hprovides _ hd]
  | @param p hp =>
    rw [view_node? hc.plain] at hn
    rw [view_node? hc.plain'] at hn'
    refine congrArg Option.isNone (View.promiseFrom_eq (v := c.view ts) ts.paramsKnown us.paramsKnown
      hprovides (fun p decl hp hdecl k hk => ?_) hp (Types.mem_paramsKnown hn)
      (Types.mem_paramsKnown hn') (c.unsearched_lt_bound ts) (c'.unsearched_lt_bound us)).1
    -- the constraints are in both stores under the same handles
    obtain ⟨n, n', hn, hn', hnode⟩ := (hc.constraints p decl hp hdecl k hk).exists_node
    obtain rfl := Option.some.inj (hn.symm.trans hn')
    rw [view_node? hc.plain, view_node? hc.plain', hts _ _ hn, hus _ _ hn]
    refine ⟨rfl, ?_⟩
    rintro _ ⟨⟩
    cases hnode with
    | named hd => exact ⟨fun _ he => Option.some.inj he ▸ hd, by simp⟩
    | app hd => exact ⟨fun _ he => Option.some.inj he ▸ hd, by simp⟩
    | param hp =>
      refine ⟨by simp [Node.definition?], ?_⟩
      rintro q ⟨⟩
      exact ⟨hp, Types.mem_paramsKnown (hts _ _ hn), Types.mem_paramsKnown (hus _ _ hn)⟩

theorem isReferenceType_eq (h : Twin K ts us t u) :
    (c'.view us).isReferenceType u = (c.view ts).isReferenceType t :=
  hc.meets_eq hts hus h .reference

theorem missing_eq (h : Twin K ts us t u) (s : Special) :
    (c'.view us).missing u s = (c.view ts).missing t s := by
  simp only [View.missing, hc.meets_eq hts hus h]

end Coincide

end Catalog

end Generics
