import Generics.Unify
import Generics.Proofs.Assignability
import Generics.Proofs.Matching

/-!
# What unification finds

Unification answers with bindings of free parameters that solve the patterns.  Expanding constraints
only appends to them, and it appends nothing where all that constraints mention is bound; it fails
only where a constraint has no counterpart above a bound type, or where a guard objects.
-/

namespace Generics

namespace Unifier

variable {α β : Type} {c : Catalog} {g g' : Guard Param} {base ts us : Types}

/-! ## Rules for unifiers -/

section Rules

variable {m : Unifier α} {f : α → Unifier β} {P : Except UnifyError α → Types → Bool → Prop}
  {Q : Except UnifyError β → Types → Bool → Prop}

theorem watches_bind (hm : g.Watches m.run ts P)
    (hok : ∀ a us cut g', ts.Grows us → g.Keeps g' → P (.ok a) us cut →
      g'.Watches (f a).run us fun r vs cut' => Q r vs (cut || cut'))
    (herror : ∀ e us cut cut', P (.error e) us cut → Q (.error e) us (cut || cut')) :
    g.Watches (m >>= f).run ts Q := by
  rw [ExceptT.run_bind]
  refine Guard.Watches.bind hm ?_
  rintro (e | a) us cut g' hgrow hkeeps hP
  · exact .pure fun cut' => herror e us cut cut' hP
  · exact hok a us cut g' hgrow hkeeps hP

theorem watches_lift_bind {m : Engine α} {P : α → Types → Bool → Prop}
    (hm : Engine.Settles m ts P)
    (hf : ∀ a us cut, ts.Grows us → P a us cut →
      g.Watches (f a).run us fun r vs cut' => Q r vs (cut || cut')) :
    g.Watches ((monadLift m : Unifier α) >>= f).run ts Q := by
  have hrun : ((monadLift m : Unifier α) >>= f).run =
      (monadLift m : StateT (Guard Param) Engine α) >>= fun a => (f a).run :=
    ExceptT.run_bind_lift _ _
  rw [hrun]
  exact .lift_bind hm hf

theorem watches_query_bind {r : View → α}
    (hstable : ∀ vs, ts.Grows vs → r (c.view vs) = r (c.view ts))
    (h : g.Watches (f (r (c.view ts))).run ts Q) :
    g.Watches (query c r >>= f).run ts Q := by
  refine watches_lift_bind (Engine.Settles.query (P := fun a us cut => a = r (c.view ts) ∧ us = ts ∧
    cut = false) c hstable ⟨rfl, rfl, rfl⟩) ?_
  rintro _ _ _ - ⟨rfl, rfl, rfl⟩
  exact h

end Rules

/-! ## Expanding constraints -/

/-- The answer to an expansion of `σ`: more bindings of free parameters, but, unless it is cut short,
no more and no error where `settled` holds. -/
def Answers (free : List Param) (σ : Substitution) (settled : Prop)
    (r : Except UnifyError Substitution) (us : Types) (cut : Bool) : Prop :=
  (∀ τ, r = .ok τ → σ.Extends us (· ∈ free) τ) ∧ (cut = false → settled → r = .ok σ)

variable {free : List Param} {σ τ : Substitution} {settled settled' : Prop}
  {cut : Bool} {r : Except UnifyError Substitution}

theorem answers_self : Answers free σ settled (.ok σ) us cut :=
  ⟨fun _ heq => Except.ok.inj heq ▸ .refl .., fun _ _ => rfl⟩

theorem Answers.imp (h : Answers free σ settled r us cut) (himp : settled' → settled) :
    Answers free σ settled' r us cut :=
  ⟨h.1, fun hcut hs => h.2 hcut (himp hs)⟩

theorem Answers.or_right {cut' : Bool} (h : Answers free σ settled r us cut') :
    Answers free σ settled r us (cut || cut') :=
  ⟨h.1, fun hcut => h.2 (Bool.or_eq_false_iff.1 hcut).2⟩

theorem Answers.or_left {cut' : Bool} (h : Answers free σ settled r us cut) :
    Answers free σ settled r us (cut || cut') :=
  ⟨h.1, fun hcut => h.2 (Bool.or_eq_false_iff.1 hcut).1⟩

theorem exists_unfolds_of_extends (hσ : ∃ f, σ.Unfolds ts f) (hgrow : ts.Grows us)
    (h : σ.Extends us (· ∈ free) τ) : ∃ f, τ.Unfolds us f := by
  obtain ⟨f, hf⟩ := hσ
  exact Substitution.exists_unfolds_of_extends (hf.grow hgrow) h

/-- Expanding one member after another answers like each of them. -/
theorem watches_foldlM {step : Substitution → α → Unifier Substitution} {l : List α}
    (free : List Param) (settled : Substitution → α → Prop) (hσ : ∃ f, σ.Unfolds ts f)
    (hstep : ∀ a ∈ l, ∀ τ us g', ts.Grows us → g.Keeps g' → (∃ f, τ.Unfolds us f) →
      g'.Watches (step τ a).run us (Answers free τ (settled τ a))) :
    g.Watches (l.foldlM step σ).run ts (Answers free σ (∀ a ∈ l, settled σ a)) := by
  induction l generalizing σ ts g with
  | nil =>
    rw [List.foldlM_nil]
    exact .pure fun _ => answers_self
  | cons a l ih =>
    rw [List.foldlM_cons]
    refine watches_bind (hstep a (List.mem_cons_self ..) σ ts g (.refl ts) (.refl g) hσ) ?_ ?_
    · intro τ us cut g' hgrow hkeeps hanswers
      have hext := hanswers.1 τ rfl
      refine (ih (exists_unfolds_of_extends hσ hgrow hext) fun a ha υ vs g'' hvs hkeeps' hυ =>
        hstep a (List.mem_cons_of_mem _ ha) υ vs g'' (hgrow.trans hvs) (hkeeps.trans hkeeps') hυ).mono ?_
      intro r vs cut' hvs hrest
      refine ⟨fun υ hr => (hext.grow hvs).trans (hrest.1 υ hr), fun hcut hall => ?_⟩
      rw [Bool.or_eq_false_iff] at hcut
      obtain rfl := Except.ok.inj (hanswers.2 hcut.1 (hall a (List.mem_cons_self ..)))
      exact hrest.2 hcut.2 fun a ha => hall a (List.mem_cons_of_mem _ ha)
    · rintro e us cut cut' ⟨-, hsettled⟩
      refine ⟨nofun, fun hcut hall => ?_⟩
      exact absurd (hsettled (Bool.or_eq_false_iff.1 hcut).1 (hall a (List.mem_cons_self ..))) nofun

/-- Above `B` lies an application of the definition that the constraint `K` is an application of, if
it is one. -/
def Answerable (c : Catalog) (base : Types) (K B : Tree) : Prop :=
  ∀ e As, K = .app e As → ∃ Bs, Supertype c base B (.app e Bs) ∧ Bs.length = As.length

/-- Nothing is to be inferred from the constraint `K` on `B`: its free parameters are bound, and `B`
has a counterpart for it. -/
structure Inert (c : Catalog) (base : Types) (free : List Param) (bound : Param → Prop)
    (K B : Tree) : Prop where
  bound : ∀ q ∈ free, q ∈ K.params → bound q
  above : Answerable c base K B

variable {u : Unknowns} {p : Param} {k t : TypeId} {K B : Tree} {f : Param → Tree} {n : Nat}

theorem inferAmong_grow (free : List Param) (hplain : c.overrides = []) {args : List TypeId} {As : List Tree}
    (hargs : List.Forall₂ ts.Unfolds args As) (supers : List (List TypeId))
    (hsupers : ∀ bs ∈ supers, ∃ Bs, List.Forall₂ ts.Unfolds bs Bs) (hgrow : ts.Grows us)
    (σ : Substitution) :
    (c.view us).inferAmong free σ args supers = (c.view ts).inferAmong free σ args supers := by
  have hsome : supers.findSome? (fun bs => ((c.view us).matchAll free σ args bs).toOption) =
      supers.findSome? fun bs => ((c.view ts).matchAll free σ args bs).toOption := by
    induction supers with
    | nil => rfl
    | cons bs supers ih =>
      simp only [List.mem_cons, forall_eq_or_imp] at hsupers
      obtain ⟨⟨Bs, hBs⟩, hsupers⟩ := hsupers
      rw [List.findSome?_cons, List.findSome?_cons, c.matchAll_grow hplain hargs hBs hgrow,
        ih hsupers]
  rw [View.inferAmong, View.inferAmong, hsome]

/-- The bindings after an inference are those before it if no supertype matches; otherwise they come
from the first that does, and matching it started from the bindings before. -/
theorem inferAmong_spec (v : View) (free : List Param) (σ : Substitution) (args : List TypeId)
    (supers : List (List TypeId)) :
    (v.inferAmong free σ args supers = σ ∧
        ∀ bs ∈ supers, ∀ τ, v.matchAll free σ args bs ≠ .ok τ) ∨
      ∃ before bs after, supers = before ++ bs :: after ∧
        (∀ bs' ∈ before, ∀ τ, v.matchAll free σ args bs' ≠ .ok τ) ∧
        v.matchAll free σ args bs = .ok (v.inferAmong free σ args supers) := by
  have hfails : ∀ bs, (v.matchAll free σ args bs).toOption = none →
      ∀ τ, v.matchAll free σ args bs ≠ .ok τ := fun bs hnone τ hok => by
    rw [hok] at hnone
    cases hnone
  unfold View.inferAmong
  cases hfind : supers.findSome? fun bs => (v.matchAll free σ args bs).toOption with
  | none =>
    rw [List.findSome?_eq_none_iff] at hfind
    exact .inl ⟨rfl, fun bs hbs => hfails bs (hfind bs hbs)⟩
  | some τ =>
    obtain ⟨before, bs, after, hsupers, hbs, hbefore⟩ := List.findSome?_eq_some_iff.1 hfind
    refine .inr ⟨before, bs, after, hsupers, fun bs' hbs' => hfails bs' (hbefore bs' hbs'), ?_⟩
    cases hmatch : v.matchAll free σ args bs with
    | error e => simp [hmatch, Except.toOption] at hbs
    | ok τ' =>
      rw [hmatch] at hbs
      cases hbs
      rfl

/-- The bindings inferred are the old ones, or a match with one of the supertypes gives them. -/
theorem inferAmong_cases (v : View) (free : List Param) (σ : Substitution) (args : List TypeId)
    (supers : List (List TypeId)) :
    v.inferAmong free σ args supers = σ ∨
      ∃ bs ∈ supers, v.matchAll free σ args bs = .ok (v.inferAmong free σ args supers) := by
  rcases inferAmong_spec v free σ args supers with ⟨heq, -⟩ | ⟨before, bs, after, rfl, -, hmatch⟩
  · exact .inl heq
  · exact .inr ⟨bs, by simp, hmatch⟩

theorem extends_inferAmong (free : List Param) (hplain : c.overrides = []) {args : List TypeId} {As : List Tree}
    (hargs : List.Forall₂ ts.Unfolds args As) (supers : List (List TypeId))
    (hsupers : ∀ bs ∈ supers, (∃ Bs, List.Forall₂ ts.Unfolds bs Bs) ∧ bs.length = args.length)
    (σ : Substitution) :
    σ.Extends ts (FreeIn free As) ((c.view ts).inferAmong free σ args supers) := by
  rcases inferAmong_cases (c.view ts) free σ args supers with heq | ⟨bs, hbs, hmatch⟩
  · rw [heq]
    exact .refl ..
  · obtain ⟨⟨Bs, hBs⟩, hlen⟩ := hsupers bs hbs
    exact (Catalog.of_matchAll_eq_ok hplain hargs hBs hlen hmatch).1

/-- What a bare parameter yields as a constraint: it is bound to the type itself, if it may be bound
at all. -/
theorem watches_infer_param (hplain : c.overrides = []) {q : Param}
    (hk : ts.get? k = some (.param q)) :
    g.Watches (infer c u p k t σ).run ts fun r _ _ =>
      r = .ok (if q ∈ u.free ∧ !σ.contains q then σ.insert q t else σ) := by
  unfold infer
  refine watches_query_bind (fun vs hvs => ?_) ?_
  · simp only [Catalog.view_node? hplain, hk, hvs _ _ hk]
  simp only [Catalog.view_node? hplain, hk]
  exact .pure fun _ => rfl

/-- What an application yields as a constraint: it is matched with the applications of its definition
among the supertypes of the bound type, of which `P` is known, and it is an error if there are none. -/
theorem watches_infer_app_of (hc : c.Grounded base) (hbase : base.Grows ts) {d : DefId}
    {As : List Tree} {P : InternTable TypeId → Types → Bool → Prop} (hk : ts.Unfolds k (.app d As))
    (ht : ts.Unfolds t B) (hfound : Engine.Settles (Engine.supertypes c t) ts P) :
    g.Watches (infer c u p k t σ).run ts fun r us cut => ∃ args, ∃ found : InternTable TypeId, ∃ cut',
      List.Forall₂ us.Unfolds args As ∧
      (Engine.Above c base us t B found.toList cut' ∧ P found us cut') ∧ (cut = false → cut' = false) ∧
      r = if (found.toList.filterMap ((c.view us).argsAs? d args.length)).isEmpty then
          .error (.unsatisfiedConstraint p k t)
        else .ok ((c.view us).inferAmong u.free σ args
          (found.toList.filterMap ((c.view us).argsAs? d args.length))) := by
  obtain ⟨args, hnode, hargs⟩ := hk.exists_app
  unfold infer
  refine watches_query_bind (fun vs hvs => ?_) ?_
  · simp only [Catalog.view_node? hc.plain, hnode, hvs _ _ hnode]
  simp only [Catalog.view_node? hc.plain, hnode]
  refine watches_lift_bind ((Engine.settles_supertypes hc hbase ht).and hfound) ?_
  intro above us cut hgrow habove
  have hargs := Types.forall₂_unfolds_grow hargs hgrow
  have hunfolds : ∀ s ∈ above.toList, ∃ S, us.Unfolds s S := fun s hs => by
    obtain ⟨S, hS, -⟩ := habove.1.sound s hs
    exact ⟨S, hS⟩
  refine watches_query_bind (fun vs hvs => List.filterMap_congr fun s hs => ?_) ?_
  · obtain ⟨S, hS⟩ := hunfolds s hs
    exact c.argsAs?_grow hc.plain hS hvs d _
  split
  · rename_i hempty
    exact .pure fun cut' => ⟨args, above, cut, hargs, habove,
      fun hcut => (Bool.or_eq_false_iff.1 hcut).1, (if_pos hempty).symm⟩
  · rename_i hnonempty
    have hquery := fun vs (hvs : us.Grows vs) => inferAmong_grow u.free hc.plain hargs
      (above.toList.filterMap ((c.view us).argsAs? d args.length)) (fun bs hbs => by
        obtain ⟨s, hs, hbs⟩ := List.mem_filterMap.1 hbs
        obtain ⟨S, hS⟩ := hunfolds s hs
        obtain ⟨Bs, -, -, hBs⟩ := (c.argsAs?_eq_some_iff hc.plain hS).1 hbs
        exact ⟨Bs, hBs⟩) hvs σ
    rw [← bind_pure (query c _)]
    exact watches_query_bind hquery (.pure fun cut' => ⟨args, above, cut, hargs, habove,
      fun hcut => (Bool.or_eq_false_iff.1 hcut).1, (if_neg hnonempty).symm⟩)

theorem watches_infer_app (hc : c.Grounded base) (hbase : base.Grows ts) {d : DefId} {As : List Tree}
    (hk : ts.Unfolds k (.app d As)) (ht : ts.Unfolds t B) :
    g.Watches (infer c u p k t σ).run ts fun r us cut => ∃ args, ∃ found : InternTable TypeId, ∃ cut',
      List.Forall₂ us.Unfolds args As ∧
      Engine.Above c base us t B found.toList cut' ∧ (cut = false → cut' = false) ∧
      r = if (found.toList.filterMap ((c.view us).argsAs? d args.length)).isEmpty then
          .error (.unsatisfiedConstraint p k t)
        else .ok ((c.view us).inferAmong u.free σ args
          (found.toList.filterMap ((c.view us).argsAs? d args.length))) := by
  refine (watches_infer_app_of hc hbase hk ht (Engine.settles_supertypes hc hbase ht)).mono ?_
  rintro r us cut - ⟨args, found, cut', hargs, ⟨habove, -⟩, hcut, hr⟩
  exact ⟨args, found, cut', hargs, habove, hcut, hr⟩

/-- The argument lists that a constraint is matched with belong to applications above the bound
type. -/
theorem mem_supers_iff (hplain : c.overrides = []) {found : List TypeId} {d : DefId} {n : Nat}
    {bs : List TypeId} {cut : Bool} (habove : Engine.Above c base ts t B found cut) :
    bs ∈ found.filterMap ((c.view ts).argsAs? d n) ↔ ∃ s ∈ found, ∃ Bs,
      ts.Unfolds s (.app d Bs) ∧ Supertype c base B (.app d Bs) ∧ Bs.length = n ∧
        List.Forall₂ ts.Unfolds bs Bs := by
  rw [List.mem_filterMap]
  refine exists_congr fun s => and_congr_right fun hs => ?_
  obtain ⟨S, hS, hBS⟩ := habove.sound s hs
  rw [c.argsAs?_eq_some_iff hplain hS]
  constructor
  · rintro ⟨Bs, rfl, hlen, hBs⟩
    exact ⟨Bs, hS, hBS, hlen, hBs⟩
  · rintro ⟨Bs, hS', -, hlen, hBs⟩
    exact ⟨Bs, hS.unique hS', hlen, hBs⟩

theorem watches_infer (hc : c.Grounded base) (hbase : base.Grows ts) (hk : ts.Unfolds k K)
    (ht : ts.Unfolds t B) :
    g.Watches (infer c u p k t σ).run ts fun r us cut =>
      Answers u.free σ (Inert c base u.free (σ.contains ·) K B) r us cut ∧
        ∀ τ, r = .ok τ → Answerable c base K B := by
  cases hk with
  | @app _ d args As hk hargs =>
    refine (watches_infer_app hc hbase (.app hk hargs) ht).mono ?_
    rintro r us cut - ⟨args, found, cut', hargs, habove, hcut', rfl⟩
    split
    · rename_i hempty
      refine ⟨⟨nofun, fun hcut hinert => ?_⟩, nofun⟩
      -- an application above `B` would have been found
      obtain ⟨Bs, hB, hlen⟩ := hinert.above d As rfl
      obtain ⟨s, hs, hS⟩ := habove.complete (hcut' hcut) _ hB
      obtain ⟨bs, -, hbs⟩ := hS.exists_app
      have hmem := (mem_supers_iff hc.plain habove (n := args.length)).2
        ⟨s, hs, Bs, hS, hB, hlen.trans hargs.length_eq.symm, hbs⟩
      rw [List.isEmpty_iff.1 hempty] at hmem
      cases hmem
    · rename_i hnonempty
      have hext := extends_inferAmong u.free hc.plain hargs
        (found.toList.filterMap ((c.view us).argsAs? d args.length)) (fun bs hbs => by
          obtain ⟨_, -, Bs, -, -, hlen, hBs⟩ := (mem_supers_iff hc.plain habove).1 hbs
          exact ⟨⟨Bs, hBs⟩, hBs.length_eq.trans hlen⟩) σ
      refine ⟨⟨fun τ hτ => ?_, fun _ hinert => congrArg Except.ok (hext.eq_of_contains ?_)⟩,
        fun τ _ e As' heq => ?_⟩
      · cases hτ
        exact hext.mono fun q hq => hq.1
      · rintro q ⟨hfree, A, hA, hq⟩
        refine hinert.bound q hfree ?_
        rw [Tree.params_app, List.mem_flatMap]
        exact ⟨A, hA, hq⟩
      · cases heq
        obtain ⟨bs, hbs⟩ := List.exists_mem_of_ne_nil _ fun hnil => hnonempty (List.isEmpty_iff.2 hnil)
        obtain ⟨_, -, Bs, -, hBS, hlen, -⟩ := (mem_supers_iff hc.plain habove).1 hbs
        exact ⟨Bs, hBS, hlen.trans hargs.length_eq⟩
  | named hk =>
    unfold infer
    refine watches_query_bind (fun vs hvs => ?_) ?_
    · simp only [Catalog.view_node? hc.plain, hk, hvs _ _ hk]
    simp only [Catalog.view_node? hc.plain, hk]
    exact .pure fun _ => ⟨answers_self, fun _ _ => nofun⟩
  | @param _ q hk =>
    refine (watches_infer_param hc.plain hk).mono ?_
    rintro r us cut hgrow rfl
    refine ⟨⟨fun τ hτ => ?_, fun _ hinert => ?_⟩, fun _ _ => nofun⟩
    · cases hτ
      split
      · rename_i hq
        refine Substitution.extends_insert hq.1 ?_ (ht.grow hgrow)
        simpa using hq.2
      · exact .refl ..
    · refine congrArg Except.ok (if_neg ?_)
      rintro ⟨hfree, hnew⟩
      simp [hinert.bound q hfree (by simp)] at hnew

/-- Nothing is to be inferred from the constraints of `p`, specialised by `f`, on the type `B`. -/
def Supported (c : Catalog) (base : Types) (free : List Param) (f : Param → Tree)
    (bound : Param → Prop) (p : Param) (B : Tree) : Prop :=
  ∀ decl k K, c.definitions.param? p = some decl → k ∈ decl.constraints → base.Unfolds k K →
    (∃ q ∈ free, q ∈ (K.subst f).params) → Inert c base free bound (K.subst f) B

/-- Nothing is to be inferred from the constraints of `p` on the type that it is bound to. -/
def Settled (c : Catalog) (base ts : Types) (free : List Param) (f : Param → Tree)
    (σ : Substitution) (p : Param) : Prop :=
  ∀ t, σ.get? p = some t → ∃ B, ts.Unfolds t B ∧ Supported c base free f (σ.contains ·) p B

theorem Settled.grow (h : Settled c base ts free f σ p) (hgrow : ts.Grows us) :
    Settled c base us free f σ p := by
  intro t ht
  obtain ⟨B, hB, hsupported⟩ := h t ht
  exact ⟨B, hB.grow hgrow, hsupported⟩

theorem watches_expandEach (hc : c.Grounded base) (hbase : base.Grows ts)
    (hclosure : u.closure.Unfolds ts f) {expand : Substitution → Param → Unifier Substitution}
    (hexpand : ∀ τ q us g', ts.Grows us → g.Keeps g' → (∃ f, τ.Unfolds us f) →
      g'.Watches (expand τ q).run us (Answers u.free τ False))
    (hσ : ∃ f, σ.Unfolds ts f) :
    g.Watches (expandEach c u expand σ p).run ts
      (Answers u.free σ (Settled c base ts u.free f σ p)) := by
  unfold expandEach
  refine watches_query_bind (fun vs hvs => rfl) ?_
  rw [Catalog.view_param?]
  cases ht : σ.get? p with
  | none => exact .pure fun _ => answers_self
  | some t =>
    cases hdecl : c.definitions.param? p with
    | none => exact .pure fun _ => answers_self
    | some decl =>
      obtain ⟨h, hh⟩ := hσ
      have htB := (hh p).1 t ht
      refine Guard.Watches.mono (watches_foldlM u.free (fun τ k => ∀ K,
        base.Unfolds k K → (∃ q ∈ u.free, q ∈ (K.subst f).params) →
          Inert c base u.free (τ.contains ·) (K.subst f) (h p)) ⟨h, hh⟩ ?_) ?_
      · intro k hk τ us g' hgrow hkeeps hτ
        obtain ⟨K, hK⟩ := hc.constraints p decl hdecl k hk
        have hbase' := hbase.trans hgrow
        refine watches_lift_bind
          (Engine.settles_instantiate hc.plain (hK.grow hbase') (hclosure.grow hgrow)) ?_
        rintro k' vs _ hvs ⟨hk', rfl, -⟩
        refine watches_query_bind (fun ws hws => c.mentionsAny_grow hc.plain hk' hws) ?_
        split
        · rename_i hmentions
          rw [c.mentionsAny_iff hc.plain hk'] at hmentions
          refine watches_bind (watches_infer hc (hbase'.trans hvs) hk' (htB.grow (hgrow.trans hvs))) ?_
            fun e us cut cut' hanswers => hanswers.1.or_left.or_right.imp fun hall =>
              hall K hK hmentions
          rintro υ ws cut g'' hws hkeeps' ⟨hanswers, -⟩
          have hext := hanswers.1 υ rfl
          refine (watches_foldlM u.free (fun _ _ => False)
            (exists_unfolds_of_extends hτ (hvs.trans hws) hext)
            fun q _ τ xs g₃ hxs hkeeps'' hτ => hexpand τ q xs g₃ (hgrow.trans (hvs.trans (hws.trans hxs)))
              (hkeeps.trans (hkeeps'.trans hkeeps'')) hτ).mono ?_
          intro r xs cut' hxs hrest
          refine ⟨fun υ' hr => (hext.grow hxs).trans (hrest.1 υ' hr), fun hcut hall => ?_⟩
          simp only [Bool.or_eq_false_iff] at hcut
          -- nothing was inferred, so nothing is left to expand
          obtain rfl := Except.ok.inj (hanswers.2 hcut.2.1 (hall K hK hmentions))
          refine hrest.2 hcut.2.2 fun q hq => ?_
          rw [Substitution.size, ← List.length_map (f := (·.1)), ← Substitution.domain,
            List.drop_length] at hq
          cases hq
        · exact .pure fun _ => answers_self
      · refine fun r us cut _ hanswers => hanswers.imp fun hsettled k hk K hK hmentions => ?_
        obtain ⟨B, hB, hsupported⟩ := hsettled t ht
        obtain rfl := hB.unique htB
        exact hsupported decl k K hdecl hk hK hmentions

theorem watches_expandTo (hc : c.Grounded base) (hbase : base.Grows ts)
    (hclosure : u.closure.Unfolds ts f) (hσ : ∃ f, σ.Unfolds ts f) :
    g.Watches (expandTo c u n σ p).run ts
      (Answers u.free σ (0 < n ∧ Settled c base ts u.free f σ p)) := by
  induction n generalizing ts σ p g with
  | zero => exact .pure fun _ => ⟨by simp, fun _ hs => absurd hs.1 (Nat.lt_irrefl 0)⟩
  | succ n ih =>
    rw [expandTo, Guard.Watches, ExceptT.run_bind, StateT.run_bind]
    change Engine.Settles (pure (Except.ok (g.enter p).1, (g.enter p).2) >>= _) ts _
    rw [pure_bind]
    rcases henter : g.enter p with ⟨e, g'⟩
    by_cases he : e = .entered
    · subst he
      refine Guard.Watches.leave_entered henter (Guard.Watches.mono (watches_expandEach hc hbase hclosure
        (fun τ q us g'' hus _ hτ => ?_) hσ) fun r us cut _ hanswers => hanswers.imp And.right)
      exact (ih (hbase.trans hus) (hclosure.grow hus) hτ).mono fun r vs cut _ h => h.imp False.elim
    · obtain ⟨hkeeps, hcases⟩ := Guard.of_enter_ne_entered henter he
      rcases hcases with ⟨rfl, hmem⟩ | ⟨hne, hexceeded⟩
      · exact .pure ⟨hkeeps, answers_self⟩
      · have hthrow : Engine.Settles (pure (Except.error .limitExceeded, g')) ts fun r us cut =>
            g.Keeps r.2 ∧ Answers u.free σ (0 < n + 1 ∧ Settled c base ts u.free f σ p) r.1 us
              (cut || r.2.exceeded) :=
          .pure ⟨hkeeps, by simp, fun hcut => by simp [hexceeded] at hcut⟩
        cases e with
        | entered => exact absurd rfl he
        | cycle => exact absurd rfl hne
        | tooDeep => exact hthrow
        | tooLong => exact hthrow

theorem Supported.imp {bound bound' : Param → Prop} (h : Supported c base free f bound p B)
    (himp : ∀ q, bound q → bound' q) : Supported c base free f bound' p B := by
  intro decl k K hdecl hk hK hmentions
  obtain ⟨hbound, habove⟩ := h decl k K hdecl hk hK hmentions
  exact ⟨fun q hfree hq => himp q (hbound q hfree hq), habove⟩

/-! ## Unifying -/

variable {as bs : List TypeId} {As Bs : List Tree}

/-- Unification answers with bindings that solve the patterns.  Where some substitution solves the
patterns, and where constraints leave nothing to be inferred, it answers with the bindings of what the
patterns mention, unless it is cut short. -/
theorem watches_unify (hc : c.Grounded base) (hbase : base.Grows ts)
    (hclosure : u.closure.Unfolds ts f) (has : List.Forall₂ ts.Unfolds as As)
    (hbs : List.Forall₂ ts.Unfolds bs Bs) :
    g.Watches (unify c u as bs).run ts fun r us cut =>
      (∀ τ, r = .ok τ → τ.SolvesAll us u.free As Bs ∧
        Substitution.empty.Extends us (· ∈ u.free) τ) ∧
      (cut = false → ∀ h, Rigid u.free h → As.map (Tree.subst h) = Bs →
        (∀ p, FreeIn u.free As p → Supported c base u.free f (FreeIn u.free As) p (h p)) →
        ∃ τ, r = .ok τ ∧ τ.Agrees us h ∧ ∀ p, τ.contains p ↔ FreeIn u.free As p) := by
  unfold unify
  split
  · rename_i hlen
    refine .pure fun _ => ⟨nofun, fun _ h _ hsolved => absurd ?_ hlen⟩
    rw [has.length_eq, hbs.length_eq, ← hsolved, List.length_map]
  rename_i hlen
  rw [not_not] at hlen
  refine watches_query_bind (fun vs hvs => c.matchAll_grow hc.plain has hbs hvs .empty) ?_
  cases hmatch : (c.view ts).matchAll u.free .empty as bs with
  | error e =>
    refine .pure fun _ => ⟨nofun, fun _ h hrigid hsolved => ?_⟩
    obtain ⟨τ, hτ, -⟩ := Catalog.exists_matchAll_eq_ok hc.plain has (hsolved ▸ hbs)
      (Substitution.agrees_empty ts h) hrigid
    exact absurd (hmatch.symm.trans hτ) nofun
  | ok matched =>
    obtain ⟨hext, hsolves⟩ := Catalog.of_matchAll_eq_ok hc.plain has hbs hlen.symm hmatch
    have hmatched := Substitution.exists_unfolds_of_extends (Substitution.unfolds_empty ts) hext
    have hcontains : ∀ p, matched.contains p ↔ FreeIn u.free As p := fun p =>
      ⟨Substitution.of_contains_of_extends_empty hext, hsolves.contains⟩
    have hexpand : ∀ h, Rigid u.free h → As.map (Tree.subst h) = Bs →
        (∀ p, FreeIn u.free As p → Supported c base u.free f (FreeIn u.free As) p (h p)) →
        matched.Agrees ts h ∧ ∀ p ∈ matched.domain, Settled c base ts u.free f matched p := by
      intro h hrigid hsolved hsupported
      obtain ⟨τ, hτ, hagrees⟩ := Catalog.exists_matchAll_eq_ok hc.plain has (hsolved ▸ hbs)
        (Substitution.agrees_empty ts h) hrigid
      obtain rfl := Except.ok.inj (hτ.symm.trans hmatch)
      refine ⟨hagrees, fun p hp t ht => ⟨h p, hagrees p t ht, ?_⟩⟩
      exact (hsupported p ((hcontains p).1 (Substitution.contains_of_get? ht))).imp fun q =>
        (hcontains q).2
    refine watches_bind (watches_foldlM u.free
      (fun τ p => Settled c base ts u.free f τ p) hmatched ?_) ?_ ?_
    · rintro p - τ us g' hgrow - hτ
      exact (watches_expandTo hc (hbase.trans hgrow) (hclosure.grow hgrow) hτ).mono
        fun r vs cut _ h => h.imp fun hsettled => ⟨Nat.succ_pos _, hsettled.grow hgrow⟩
    · intro τ us cut g' hgrow hkeeps hanswers
      have hext' := hanswers.1 τ rfl
      refine watches_lift_bind (Engine.Settles.report (P := fun _ vs cut => vs = us ∧ cut = false)
        c _ ⟨rfl, rfl⟩) ?_
      rintro _ _ _ - ⟨rfl, rfl⟩
      refine .pure fun cut' => ⟨fun υ hυ => ?_, fun hcut h hrigid hsolved hsupported => ?_⟩
      · cases hυ
        exact ⟨(hsolves.grow hmatched hgrow).of_extends hext',
          ((hext.mono fun p hp => hp.1).grow hgrow).trans hext'⟩
      · obtain ⟨hagrees, hsettled⟩ := hexpand h hrigid hsolved hsupported
        obtain rfl := Except.ok.inj (hanswers.2 (Bool.or_eq_false_iff.1 hcut).1 hsettled)
        exact ⟨_, rfl, hagrees.grow hgrow, hcontains⟩
    · rintro e us cut cut' ⟨-, hanswers⟩
      refine ⟨nofun, fun hcut h hrigid hsolved hsupported => ?_⟩
      obtain ⟨-, hsettled⟩ := hexpand h hrigid hsolved hsupported
      exact absurd (hanswers (Bool.or_eq_false_iff.1 hcut).1 hsettled) nofun

end Unifier

end Generics
