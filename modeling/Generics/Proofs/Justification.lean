import Generics.Proofs.ExactMatching
import Generics.Proofs.Expansion
import Generics.Proofs.Listing

/-!
# Why a parameter is bound

A parameter that the patterns do not mention is bound only because of a constraint of a parameter bound
before it, and what the constraint says holds of the answer: the bound type lies below the constraint,
once that is specialised by all bindings.  Supertypes that fit the constraint in part leave nothing
behind, and no step changes a binding.
-/

namespace Generics

namespace Substitution

variable {ts us : Types} {S : Param → Prop} {σ τ : Substitution} {p q : Param}

theorem domain_of_extends (h : σ.Extends ts S τ) : σ.domain <+: τ.domain := by
  obtain ⟨more, hmore, -⟩ := h
  exact ⟨more.map Prod.fst, (domain_of_entries hmore).1.symm⟩

/-- What was bound stands before what is appended. -/
theorem sublist_domain_of_extends (h : σ.Extends ts S τ) (hp : σ.contains p) (hq : τ.contains q)
    (hnew : ¬σ.contains q) : [p, q].Sublist τ.domain := by
  obtain ⟨more, hmore⟩ := domain_of_extends h
  rw [contains_iff_mem_domain] at hp hq hnew
  rw [← hmore] at hq ⊢
  have hq' : q ∈ more := (List.mem_append.1 hq).resolve_left hnew
  exact (List.singleton_sublist.2 hp).append (List.singleton_sublist.2 hq')

end Substitution

namespace Unifier

/-- `k` is a declared constraint of `p`, which is bound to `t` before `q` is bound. -/
structure Leads (c : Catalog) (σ : Substitution) (q p : Param) (t k : TypeId) : Prop where
  before : [p, q].Sublist σ.domain
  bound : σ.get? p = some t
  declared : ∃ decl, c.definitions.param? p = some decl ∧ k ∈ decl.constraints

/-- Why `q` is bound: a constraint of a parameter `p` bound before it, specialised to what is closed, is
`q` itself, which is bound to the same type, or an application that mentions `q` and that the bindings
turn into one of the supertypes of the type that `p` is bound to. -/
inductive Justified (c : Catalog) (u : Unknowns) (s : Session) (σ : Substitution) (q : Param) : Prop
  | same {p : Param} {t k : TypeId} (h : Leads c σ q p t k)
      (hparam : (c.view s.types).node? (Engine.instantiate c k u.closure s).1 = some (.param q))
      (hq : σ.get? q = some t)
  | above {p : Param} {t k : TypeId} {d : DefId} {args : List TypeId} (h : Leads c σ q p t k)
      (happ : (c.view s.types).node? (Engine.instantiate c k u.closure s).1 = some (.app d args))
      (hq : q ∈ (c.view s.types).params (Engine.instantiate c k u.closure s).1)
      (habove : (Engine.instantiate c (Engine.instantiate c k u.closure s).1 σ s).1 ∈
        (Engine.supertypes c t s).1.toList)

/-- Why `q` is bound, of the trees that are already in the store. -/
inductive Accounted (c : Catalog) (base : Types) (free : List Param) (f : Param → Tree) (ts : Types)
    (σ : Substitution) (q : Param) : Prop
  | same {p : Param} {t k k' : TypeId} {K : Tree} (h : Leads c σ q p t k) (hK : base.Unfolds k K)
      (hk' : ts.Unfolds k' (K.subst f)) (hparam : K.subst f = .param q) (hq : σ.get? q = some t)
  | above {p : Param} {t k k' s : TypeId} {d : DefId} {As : List Tree} {B K S : Tree}
      (h : Leads c σ q p t k) (hK : base.Unfolds k K) (hk' : ts.Unfolds k' (K.subst f))
      (happ : K.subst f = .app d As) (hq : q ∈ (K.subst f).params) (ht : ts.Unfolds t B)
      (hs : ts.Unfolds s S) (hlisted : Listed c base B S) (hsolves : σ.Solves ts free (K.subst f) S)

variable {c : Catalog} {u : Unknowns} {base ts us : Types} {f h : Param → Tree} {σ τ : Substitution}
  {free : List Param} {p q : Param} {t k : TypeId} {s : Session} {S : Param → Prop}

theorem Leads.of_extends (h : Leads c σ q p t k) (hext : σ.Extends ts S τ) : Leads c τ q p t k :=
  ⟨h.before.trans (Substitution.domain_of_extends hext).sublist, Substitution.get?_of_extends hext h.bound,
    h.declared⟩

theorem Accounted.grow (h : Accounted c base free f ts σ q) (hσ : ∃ f, σ.Unfolds ts f)
    (hgrow : ts.Grows us) : Accounted c base free f us σ q := by
  cases h with
  | same h hK hk' hparam hq => exact .same h hK (hk'.grow hgrow) hparam hq
  | above h hK hk' happ hq ht hs hlisted hsolves =>
    exact .above h hK (hk'.grow hgrow) happ hq (ht.grow hgrow) (hs.grow hgrow) hlisted
      ⟨hsolves.contains, fun g hg => hsolves.subst_eq g (hg.of_grows hσ hgrow)⟩

theorem Accounted.of_extends (h : Accounted c base free f ts σ q) (hext : σ.Extends ts S τ) :
    Accounted c base free f ts τ q := by
  cases h with
  | same h hK hk' hparam hq =>
    exact .same (h.of_extends hext) hK hk' hparam (Substitution.get?_of_extends hext hq)
  | above h hK hk' happ hq ht hs hlisted hsolves =>
    exact .above (h.of_extends hext) hK hk' happ hq ht hs hlisted (hsolves.of_extends hext)

/-- What is there already is found again: the constraint, what the bindings make of it, and the
supertypes. -/
theorem Accounted.justified (hc : c.Grounded base) (hbase : base.Grows s.types)
    (hclosure : u.closure.Unfolds s.types f) (hσ : σ.Unfolds s.types h)
    (hfree : ∀ p, σ.contains p → p ∈ free) (haccounted : Accounted c base free f s.types σ q) :
    Justified c u s σ q := by
  -- a specialised constraint that is in the store has one handle
  have hspecialised : ∀ {k k' : TypeId} {K : Tree}, base.Unfolds k K →
      s.types.Unfolds k' (K.subst f) → (Engine.instantiate c k u.closure s).1 = k' := by
    intro k k' K hK hk'
    obtain ⟨hgrow, hunfolds, -⟩ :=
      (Engine.settles_instantiate hc.plain (hK.grow hbase) hclosure).elim rfl
    exact hunfolds.inj (hk'.grow hgrow)
  cases haccounted with
  | same hleads hK hk' hparam hq =>
    refine .same hleads ?_ hq
    rw [hspecialised hK hk', Catalog.view_node? hc.plain]
    rw [hparam] at hk'
    cases hk' with
    | param hk' => exact hk'
  | above hleads hK hk' happ hq ht hs hlisted hsolves =>
    have hkey := hspecialised hK hk'
    obtain ⟨args, hnode, -⟩ := (happ ▸ hk').exists_app
    rw [← Catalog.view_node? hc.plain, ← hkey] at hnode
    refine .above hleads hnode ?_ ?_
    · rw [hkey, c.mem_params_iff hc.plain hk']
      exact hq
    · rw [hkey]
      have hrigid : Rigid free h := rigid_of_unfolds hσ fun p hp =>
        hfree p ((σ.contains_iff_mem_domain p).2 hp)
      obtain ⟨hgrow, himage, -⟩ := (Engine.settles_instantiate hc.plain hk' hσ).elim rfl
      rw [hsolves.subst_eq h hσ.agrees hrigid] at himage
      obtain ⟨v, hv, hV⟩ := (listed_iff hc hbase ht).1 hlisted
      have hgrow' := ((Engine.settles_supertypes hc hbase ht).elim rfl).1
      rw [himage.inj (hs.grow hgrow), (hs.grow hgrow').inj hV]
      exact hv

/-! ## Expansion accounts for what it binds -/

variable {g : Guard Param} {As Bs : List Tree} {as bs : List TypeId}

/-- Bind only parameters that the patterns mention or a constraint accounts for. -/
def accountedAim (c : Catalog) (base : Types) (free : List Param) (f : Param → Tree)
    (As : List Tree) : Aim where
  keeps ts σ := (∀ p, σ.contains p → p ∈ free) ∧ (∃ h, σ.Unfolds ts h) ∧
    ∀ q, σ.contains q → FreeIn free As q ∨ Accounted c base free f ts σ q
  done _ _ _ _ := True
  succeeds := False

theorem accountedAim_grow (hσ : (accountedAim c base free f As).keeps ts σ) (hgrow : ts.Grows us) :
    (accountedAim c base free f As).keeps us σ :=
  ⟨hσ.1, hσ.2.1.imp fun _ hh => hh.grow hgrow, fun q hq => (hσ.2.2 q hq).imp id fun h =>
    h.grow hσ.2.1 hgrow⟩

/-- What is appended for good reason is accounted for beside what was bound before. -/
theorem accountedAim_of_extends (hσ : (accountedAim c base free f As).keeps ts σ)
    (hext : σ.Extends ts (· ∈ free) τ)
    (hnew : ∀ q, τ.contains q → ¬σ.contains q → Accounted c base free f ts τ q) :
    (accountedAim c base free f As).keeps ts τ := by
  obtain ⟨hfree, ⟨h, hh⟩, haccounted⟩ := hσ
  refine ⟨fun p hp => (Substitution.contains_cases_of_extends hext hp).elim (hfree p) id,
    Substitution.exists_unfolds_of_extends hh hext, fun q hq => ?_⟩
  by_cases hqσ : σ.contains q
  · exact (haccounted q hqσ).imp id fun h => h.of_extends hext
  · exact .inr (hnew q hq hqσ)

theorem accountedAim_served (hc : c.Grounded base) :
    (accountedAim c base u.free f As).Served c u base f where
  free hσ := hσ.1
  grow := accountedAim_grow
  mono _ _ _ := trivial
  closed _ _ _ _ := trivial
  infer := by
    intro ts σ p decl k K k' t g hbase hσ ht hdecl hk hK hk' hmentions
    obtain ⟨h, hh⟩ := hσ.2.1
    have htB := (hh p).1 t ht
    have hleads : ∀ {us τ q}, σ.Extends us (· ∈ u.free) τ → τ.contains q → ¬σ.contains q →
        Leads c τ q p t k := fun hext hq hnew =>
      ⟨Substitution.sublist_domain_of_extends hext (Substitution.contains_of_get? ht) hq hnew,
        Substitution.get?_of_extends hext ht, decl, hdecl, hk⟩
    cases hS : K.subst f with
    | named d => simp [hS] at hmentions
    | param q =>
      have hnode := hk'
      rw [hS] at hnode
      cases hnode with
      | param hnode =>
      refine (watches_infer_param hc.plain hnode).mono ?_
      rintro r us cut hgrow rfl
      refine ⟨fun τ hτ => ?_, fun _ h => h.elim⟩
      cases hτ
      split
      · rename_i hq
        have hext : σ.Extends us (· ∈ u.free) (σ.insert q t) :=
          Substitution.extends_insert hq.1 (by simpa using hq.2) (htB.grow hgrow)
        refine ⟨accountedAim_of_extends (accountedAim_grow hσ hgrow) hext fun q' hq' hnew => ?_, hext,
          trivial⟩
        have hget : (σ.insert q t).get? q = some t := by rw [Substitution.get?_insert, if_pos rfl]
        obtain rfl : q' = q := by
          by_contra hne
          rw [Substitution.contains, Substitution.get?_insert, if_neg hne] at hq'
          exact hnew hq'
        exact .same (hleads hext hq' hnew) hK (hk'.grow hgrow) hS hget
      · exact ⟨accountedAim_grow hσ hgrow, .refl .., trivial⟩
    | app d As' =>
      rw [hS] at hk'
      refine (watches_infer_app_of hc hbase hk' htB
        (Engine.settles_supertypes_listed hc hbase htB)).mono ?_
      rintro r us cut hgrow ⟨args, found, cut', hargs, ⟨habove, hlisted, -⟩, -, rfl⟩
      refine ⟨fun τ hτ => ?_, fun _ h => h.elim⟩
      split at hτ
      · cases hτ
      cases hτ
      have hσ' := accountedAim_grow hσ hgrow
      rcases inferAmong_cases (c.view us) u.free σ args
        (found.toList.filterMap ((c.view us).argsAs? d args.length)) with heq | ⟨bs, hbs, hmatch⟩
      · rw [heq]
        exact ⟨hσ', .refl .., trivial⟩
      · obtain ⟨s, hs, Bs, hS', -, hlen, hBs⟩ := (mem_supers_iff hc.plain habove).1 hbs
        obtain ⟨hext, hsolves⟩ :=
          Catalog.of_matchAll_eq_ok hc.plain hargs hBs (hBs.length_eq.trans hlen) hmatch
        have hext' : σ.Extends us (· ∈ u.free) _ := hext.mono fun q hq => hq.1
        refine ⟨accountedAim_of_extends hσ' hext' fun q hq hnew => ?_, hext', trivial⟩
        obtain ⟨-, A, hA, hqA⟩ := (Substitution.contains_cases_of_extends hext hq).resolve_left hnew
        obtain ⟨U, hU, hBU⟩ := hlisted s hs
        obtain rfl := hU.unique hS'
        refine .above (hleads hext' hq hnew) hK (hS ▸ hk'.grow hgrow) hS ?_ (htB.grow hgrow) hS' hBU
          (hS ▸ hsolves.solves_app d)
        rw [hS, Tree.params_app, List.mem_flatMap]
        exact ⟨A, hA, hqA⟩

/-- Unification binds only what the patterns mention or a constraint accounts for. -/
theorem watches_unify_accounted (hc : c.Grounded base) (hbase : base.Grows ts)
    (hclosure : u.closure.Unfolds ts f) (has : List.Forall₂ ts.Unfolds as As)
    (hbs : List.Forall₂ ts.Unfolds bs Bs) (hvisiting : g.visiting = []) :
    g.Watches (unify c u as bs).run ts fun r us _ =>
      ∀ τ, r = .ok τ → (accountedAim c base u.free f As).keeps us τ := by
  refine (watches_unify_reached hc hbase hclosure (accountedAim_served hc) has hbs hvisiting
    (fun matched hmatch hlen => ?_) False.elim).mono fun _ _ _ _ hreached τ hτ => (hreached.1 τ hτ).1
  obtain ⟨hext, -⟩ := Catalog.of_matchAll_eq_ok hc.plain has hbs hlen.symm hmatch
  have hmentioned := fun p (hp : matched.contains p) => Substitution.of_contains_of_extends_empty hext hp
  exact ⟨fun p hp => (hmentioned p hp).1,
    Substitution.exists_unfolds_of_extends (Substitution.unfolds_empty ts) hext,
    fun q hq => .inl (hmentioned q hq)⟩

/-! ## Nothing is changed -/

/-- Whatever a computation answers from some bindings, these come first in it, as they were. -/
def Preserves (m : Substitution → Unifier Substitution) : Prop :=
  ∀ (σ τ : Substitution) (g : Guard Param) (s : Session),
    ((m σ).run.run g s).1.1 = .ok τ → σ.entries <+: τ.entries

theorem preserves_of_appends {m : Substitution → Unifier Substitution}
    (hm : ∀ σ, Conduct.expanding.Ensures (m σ) (σ.Appends free)) : Preserves m := by
  intro σ τ g s hrun
  have houtcome := hm σ g s
  rw [hrun] at houtcome
  exact Substitution.Appends.entries houtcome

end Unifier

open Unifier in
/-- Where unification answers, every parameter that it binds and the patterns do not mention is bound
for a constraint of a parameter bound before it, and the bindings satisfy the constraint.  A supertype
that does not match as a whole leaves no binding behind, and neither inference nor expansion changes a
binding. -/
theorem unify_justified {c : Catalog} {u : Unknowns} {limits : Limits} {s s' : Session}
    {patterns concretes : List TypeId} {As Bs : List Tree} {b : Substitution}
    (hc : c.Grounded s.types) (hclosure : u.closure.Finite s.types)
    (has : List.Forall₂ s.types.Unfolds patterns As)
    (hbs : List.Forall₂ s.types.Unfolds concretes Bs)
    (hrun : runFresh limits (unify c u patterns concretes) s = (.ok b, s')) :
    (∀ q ∈ b.domain, (∀ a ∈ patterns, q ∉ (c.view s.types).params a) → Justified c u s' b q) ∧
      (∀ (v : View) σ args supers,
        (v.inferAmong u.free σ args supers = σ ∧
            ∀ bs ∈ supers, ∀ τ, v.matchAll u.free σ args bs ≠ .ok τ) ∨
          ∃ before bs after, supers = before ++ bs :: after ∧
            (∀ bs' ∈ before, ∀ τ, v.matchAll u.free σ args bs' ≠ .ok τ) ∧
            v.matchAll u.free σ args bs = .ok (v.inferAmong u.free σ args supers)) ∧
      (∀ p k t, Preserves (infer c u p k t)) ∧ ∀ n p, Preserves (expandTo c u n · p) := by
  refine ⟨fun q hq hnot => ?_, fun v => inferAmong_spec v u.free,
    fun p k t => preserves_of_appends fun σ => Conduct.appends_infer k t,
    fun n p => preserves_of_appends fun σ => Conduct.appends_expandTo c u n σ p⟩
  obtain ⟨f, hf⟩ := hclosure
  obtain ⟨hgrow, hkeeps⟩ := Engine.Settles.of_apply_eq
    (Guard.Watches.retire limits (watches_unify_accounted hc (.refl _) hf has hbs rfl)) hrun
  obtain ⟨hfree, ⟨h, hh⟩, haccounted⟩ := hkeeps b rfl
  refine ((haccounted q ((b.contains_iff_mem_domain q).2 hq)).resolve_left ?_).justified hc hgrow
    (hf.grow hgrow) hh hfree
  rintro ⟨-, A, hA, hqA⟩
  obtain ⟨a, ha, haA⟩ := exists_of_mem_right has hA
  exact hnot a ha ((c.mem_params_iff hc.plain haA).2 hqA)

namespace ServedSample

/-- `T` becomes `C`, and `U` is bound because of the constraint of `T`. -/
theorem unify_justified_served : ∃ b s',
    Unifier.runFresh .unification (Unifier.unify catalog unknowns [⟨0⟩] [⟨3⟩]) session = (.ok b, s') ∧
      ⟨⟨2⟩, 1⟩ ∈ b.domain ∧ Unifier.Justified catalog unknowns s' b ⟨⟨2⟩, 1⟩ := by
  have hc : catalog.Grounded session.types := Catalog.WellDeclared.grounded (by decide +kernel)
  have hT : session.types.Unfolds ⟨0⟩ (.param ⟨⟨2⟩, 0⟩) := .param rfl
  have hC : session.types.Unfolds ⟨3⟩ (.named ⟨3⟩) := .named rfl
  have hrun : (Unifier.runFresh .unification (Unifier.unify catalog unknowns [⟨0⟩] [⟨3⟩]) session).1 =
      .ok ⟨[(⟨⟨2⟩, 0⟩, ⟨3⟩), (⟨⟨2⟩, 1⟩, ⟨4⟩)]⟩ := by decide +kernel
  refine ⟨_, _, Prod.ext hrun rfl, by decide, ?_⟩
  exact (unify_justified hc (Substitution.finite_empty _) (.cons hT .nil) (.cons hC .nil)
    (Prod.ext hrun rfl)).1 ⟨⟨2⟩, 1⟩ (by decide) (by decide +kernel)

end ServedSample

end Generics
