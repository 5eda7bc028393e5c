import Generics.Resolve
import Generics.Proofs.Closing

/-!
# The course of a resolution

What each stage of a resolution passes on: the examination, the open definition, its candidates, and
what a candidate leads to.
-/

namespace Generics

/-! ## Open definitions -/

theorem Definition.arity_pos {info : Definition} (h : info.isGeneric) : 0 < info.arity := by
  simpa [isGeneric, arity, List.length_pos_iff] using h

namespace Tree

/-- The definition `d` applied to its own `n` parameters. -/
def opened (d : DefId) (n : Nat) : Tree := apply d ((List.range n).map fun i => param ⟨d, i⟩)

variable {d : DefId} {n : Nat} {f : Param → Tree} {p : Param}

theorem subst_apply (f : Param → Tree) (d : DefId) (args : List Tree) :
    (apply d args).subst f = apply d (args.map (subst f)) := by
  cases args with
  | nil => exact subst_named f d
  | cons a args => exact subst_app f d (a :: args)

theorem params_apply (d : DefId) (args : List Tree) : (apply d args).params = args.flatMap params := by
  cases args with
  | nil => exact params_named d
  | cons a args => exact params_app d (a :: args)

theorem definition?_apply (d : DefId) (args : List Tree) : (apply d args).definition? = some d := by
  cases args <;> rfl

theorem args_apply (d : DefId) (args : List Tree) : (apply d args).args = args := by
  cases args <;> rfl

theorem mem_params_iff_mem_args {S : Tree} (h : S.definition?.isSome) :
    p ∈ S.params ↔ ∃ A ∈ S.args, p ∈ A.params := by
  cases S with
  | named e => simp [args]
  | app e As => rw [params_app, List.mem_flatMap]; rfl
  | param q => cases h

theorem eq_apply_of_args_ne_nil {S : Tree} (h : S.definition? = some d) (hargs : S.args ≠ []) :
    S = apply d S.args := by
  cases S with
  | named e => exact absurd rfl hargs
  | app e As =>
    cases h
    exact (apply_of_ne_nil hargs d).symm
  | param q => cases h

theorem definition?_opened (d : DefId) (n : Nat) : (opened d n).definition? = some d :=
  definition?_apply ..

theorem args_opened (d : DefId) (n : Nat) :
    (opened d n).args = (List.range n).map fun i => param ⟨d, i⟩ :=
  args_apply ..

theorem mem_params_opened : p ∈ (opened d n).params ↔ p.owner = d ∧ p.index < n := by
  simp only [opened, params_apply, List.mem_flatMap, List.mem_map, List.mem_range]
  constructor
  · rintro ⟨_, ⟨i, hi, rfl⟩, hp⟩
    obtain rfl : p = ⟨d, i⟩ := by simpa using hp
    exact ⟨rfl, hi⟩
  · rintro ⟨rfl, hp⟩
    exact ⟨_, ⟨p.index, hp, rfl⟩, by simp⟩

theorem map_assign_opened {args : List Tree} (h : args.length = n) :
    ((List.range n).map fun i => param ⟨d, i⟩).map (subst (assign d args)) = args := by
  refine List.ext_getElem? fun i => ?_
  rw [List.getElem?_map, List.getElem?_map]
  rcases Nat.lt_or_ge i n with hi | hi
  · rw [List.getElem?_range hi, List.getElem?_eq_getElem (h ▸ hi)]
    simp [assign_of_getElem? (List.getElem?_eq_getElem (h ▸ hi))]
  · rw [List.getElem?_eq_none (by simpa using hi), List.getElem?_eq_none (h ▸ hi)]
    rfl

/-- An instance of an open definition. -/
theorem subst_assign_opened {args : List Tree} (h : args.length = n) :
    (opened d n).subst (assign d args) = apply d args := by
  rw [opened, subst_apply, map_assign_opened h]

theorem wellformed_opened {ds : Definitions} {info : Definition} (h : ds.get? d = some info) :
    (opened d info.arity).Wellformed ds := by
  refine wellformed_apply h (by simp) fun a ha => ?_
  obtain ⟨i, hi, rfl⟩ := List.mem_map.1 ha
  refine .param ?_
  rw [Definitions.param?, h, Option.bind_some, Option.isSome_iff_exists]
  exact ⟨_, List.getElem?_eq_getElem (List.mem_range.1 hi)⟩

/-- The open type of a definition is over its parameters. -/
theorem owned_opened {ds : Definitions} {info : Definition} (h : ds.get? d = some info) :
    (opened d info.arity).Owned ds d :=
  ⟨wellformed_opened h, fun _ hp => (mem_params_opened.1 hp).1⟩

theorem opened_eq_app (h : 0 < n) : opened d n = app d ((List.range n).map fun i => param ⟨d, i⟩) :=
  apply_of_ne_nil (by simpa using Nat.ne_of_gt h) d

end Tree

/-- The parameters of a definition have types where its open type has one. -/
theorem exists_param_of_opened {ts : Types} {d : DefId} {n : Nat} {t : TypeId}
    (ht : ts.Unfolds t (.opened d n)) : ∀ i < n, ∃ q, ts.get? q = some (.param ⟨d, i⟩) := by
  intro i hi
  rw [Tree.opened_eq_app (Nat.zero_lt_of_lt hi)] at ht
  obtain ⟨as, -, has⟩ := ht.exists_app
  obtain ⟨q, -, hq⟩ := exists_of_mem_right has (List.mem_map_of_mem (List.mem_range.2 hi))
  cases hq with
  | param hnode => exact ⟨q, hnode⟩

namespace Engine

variable {c : Catalog} {base ts us : Types} {d : DefId} {t abstraction : TypeId} {T A : Tree}

theorem settles_definitionType (c : Catalog) (d : DefId) (ts : Types) :
    Settles (definitionType c d) ts fun o us cut => cut = false ∧
      match c.definitions.get? d with
      | none => o = none
      | some info => ∃ t, o = some t ∧ us.Unfolds t (.opened d info.arity) := by
  unfold definitionType
  cases c.definitions.get? d with
  | none => exact .pure ⟨rfl, rfl⟩
  | some info =>
    refine (Settles.mapM (R := fun us i t => us.Unfolds t (.param ⟨d, i⟩))
      (fun _ _ _ _ hgrow h => h.grow hgrow) fun i _ us _ =>
        .intern ⟨us.unfolds_intern_param ⟨d, i⟩, rfl⟩).bind ?_
    rintro params us _ hgrow ⟨hparams, rfl⟩
    refine (Settles.intern (P := fun t vs cut => t = (us.intern (.app d params)).1 ∧
      vs = (us.intern (.app d params)).2 ∧ cut = false) ⟨rfl, rfl, rfl⟩).bind ?_
    rintro _ _ _ - ⟨rfl, rfl, rfl⟩
    refine .pure ⟨rfl, _, rfl, us.unfolds_intern_app d ?_⟩
    rw [List.forall₂_map_right_iff]
    exact hparams.flip

end Engine

/-! ## Candidates -/

/-- The candidate `b` is the tree `B`, which lies above `O` and has the definition of `A`. -/
structure Candidate.Fits (c : Catalog) (base ts : Types) (O A : Tree) (b : Candidate) (B : Tree) :
    Prop where
  unfolds : ts.Unfolds b.type B
  args : List.Forall₂ ts.Unfolds b.args B.args
  supertype : Supertype c base O B
  definition : B.definition? = A.definition?

theorem Candidate.Fits.grow {c : Catalog} {base ts us : Types} {O A B : Tree} {b : Candidate}
    (h : b.Fits c base ts O A B) (hgrow : ts.Grows us) : b.Fits c base us O A B :=
  ⟨h.unfolds.grow hgrow, Types.forall₂_unfolds_grow h.args hgrow, h.supertype, h.definition⟩

namespace Engine

variable {c : Catalog} {base ts us : Types} {t abstraction : TypeId} {T A : Tree}

theorem candidatesAmong_grow (hplain : c.overrides = []) {above : List TypeId}
    (habove : ∀ u ∈ above, ∃ U, ts.Unfolds u U) (requested : Node) (hgrow : ts.Grows us) :
    (c.view us).candidatesAmong above abstraction requested =
      (c.view ts).candidatesAmong above abstraction requested := by
  have hnode : ∀ u ∈ above, (c.view us).node? u = (c.view ts).node? u := by
    intro u hu
    obtain ⟨U, hU⟩ := habove u hu
    obtain ⟨node, hnode, -⟩ := hU.exists_node
    rw [Catalog.view_node? hplain, Catalog.view_node? hplain, hnode, hgrow _ _ hnode]
  cases requested with
  | named => rfl
  | param => rfl
  | app d args =>
    have hfilter : above.filter ((c.view us).isApplicationOf d) =
        above.filter ((c.view ts).isApplicationOf d) :=
      List.filter_congr fun u hu => by rw [View.isApplicationOf, hnode u hu]; rfl
    simp only [View.candidatesAmong, hfilter]
    refine List.map_congr_left fun u hu => ?_
    rw [View.argsOf, hnode u (List.mem_filter.1 hu).1]
    rfl

theorem exists_argsOf_unfold (hplain : c.overrides = []) (ht : ts.Unfolds t T) :
    List.Forall₂ ts.Unfolds ((c.view ts).argsOf t) T.args := by
  rw [View.argsOf, Catalog.view_node? hplain]
  cases ht with
  | named h =>
    rw [h]
    exact .nil
  | param h =>
    rw [h]
    exact .nil
  | app h hargs =>
    rw [h]
    exact hargs

theorem exists_fits (hplain : c.overrides = []) {above : List TypeId} {cut : Bool}
    (habove : Above c base ts t T above cut) (hA : ts.Unfolds abstraction A) {requested : Node}
    (hnode : ts.get? abstraction = some requested) {b : Candidate}
    (h : b ∈ (c.view ts).candidatesAmong above abstraction requested) :
    ∃ B, b.Fits c base ts T A B := by
  cases hA with
  | param hA =>
    obtain rfl := Option.some.inj (hA.symm.trans hnode)
    cases h
  | @named _ d hA =>
    obtain rfl := Option.some.inj (hA.symm.trans hnode)
    simp only [View.candidatesAmong, List.mem_map, List.mem_filter, beq_iff_eq] at h
    obtain ⟨u, ⟨hu, rfl⟩, rfl⟩ := h
    obtain ⟨U, hU, hTU⟩ := habove.sound u hu
    obtain rfl := hU.unique (.named hA)
    exact ⟨_, hU, .nil, hTU, rfl⟩
  | @app _ d args As hA hargs =>
    obtain rfl := Option.some.inj (hA.symm.trans hnode)
    simp only [View.candidatesAmong, List.mem_map, List.mem_filter] at h
    obtain ⟨u, ⟨hu, happ⟩, rfl⟩ := h
    obtain ⟨U, hU, hTU⟩ := habove.sound u hu
    refine ⟨U, hU, exists_argsOf_unfold hplain hU, hTU, ?_⟩
    rw [View.isApplicationOf, Catalog.view_node? hplain] at happ
    cases hU with
    | named h => simp [h] at happ
    | param h => simp [h] at happ
    | @app _ e _ _ h => simpa [h, Tree.definition?] using happ

/-- Candidates are picked from the supertypes of the implementation. -/
theorem settles_candidates (hc : c.Grounded base) (hbase : base.Grows ts) (ht : ts.Unfolds t T)
    (hA : ts.Unfolds abstraction A) :
    Settles (candidates c t abstraction) ts fun cs us cut =>
      ∃ found requested, Lasts (supertypes c t) us found ∧ us.get? abstraction = some requested ∧
        Above c base us t T found.toList cut ∧
        cs = (c.view us).candidatesAmong found.toList abstraction requested := by
  obtain ⟨requested, hnode, -⟩ := hA.exists_node
  unfold candidates
  refine .query_bind c (fun vs hvs => ?_) ?_
  · simp only [Catalog.view_node? hc.plain, hnode, hvs _ _ hnode]
  simp only [Catalog.view_node? hc.plain, hnode]
  refine (settles_supertypes hc hbase ht).lasts.bind ?_
  rintro found us cut hgrow ⟨habove, hlasts⟩
  refine .query_bind c (fun vs hvs => candidatesAmong_grow hc.plain (fun u hu => ?_) requested hvs) ?_
  · obtain ⟨U, hU, -⟩ := habove.sound u hu
    exact ⟨U, hU⟩
  refine .report_bind c _ (.pure ⟨found, requested, hlasts, hgrow _ _ hnode, ?_, rfl⟩)
  rwa [Bool.or_false]

end Engine

/-! ## Examination -/

namespace Catalog

variable {c : Catalog} {ts us : Types} {abstraction implementation : TypeId} {i : Implementation}

/-- A request passes the examination exactly if both types are well-formed, neither is a parameter,
and the implementation mentions parameters of its own definition only. -/
theorem examine_eq_ok_iff (hplain : c.overrides = []) :
    (c.view ts).examine abstraction implementation = .ok i ↔
      (∃ A, ts.Unfolds abstraction A ∧ A.Wellformed c.definitions ∧ A.definition?.isSome) ∧
      (∃ I, ts.Unfolds implementation I ∧ I.Wellformed c.definitions ∧
        I.definition? = some i.definition) ∧
      i.args = (c.view ts).argsOf implementation ∧ i.free = (c.view ts).params implementation ∧
      ∀ p ∈ i.free, p.owner = i.definition := by
  unfold View.examine
  simp only [bind_eq_ok_iff, check_eq_ok_iff hplain, view_node? hplain]
  constructor
  · rintro ⟨_, ⟨A, hA, hAwf⟩, _, ⟨I, hI, hIwf⟩, h⟩
    split at h
    · cases h
    rename_i hparam
    rw [Bool.not_eq_true, isParam_iff hplain hA] at hparam
    obtain ⟨node, hnode, hdefinition⟩ := hI.exists_node
    simp only [hnode] at h
    split at h
    · cases h
    rename_i d hd
    split at h
    · cases h
    rename_i hfree
    cases h
    rw [List.find?_eq_none] at hfree
    refine ⟨⟨A, hA, hAwf, hparam⟩, ⟨I, hI, hIwf, hdefinition ▸ hd⟩, ?_, rfl, fun p hp => ?_⟩
    · rw [View.argsOf, view_node? hplain, hnode]
      rfl
    · simpa using hfree p hp
  · rintro ⟨⟨A, hA, hAwf, hparam⟩, ⟨I, hI, hIwf, hd⟩, hargs, hfree, hown⟩
    refine ⟨(), ⟨A, hA, hAwf⟩, (), ⟨I, hI, hIwf⟩, ?_⟩
    obtain ⟨node, hnode, hdefinition⟩ := hI.exists_node
    have hfind : i.free.find? (·.owner != i.definition) = none := by
      refine List.find?_eq_none.2 fun p hp => ?_
      simpa using hown p hp
    have hargs' : i.args = node.args := by
      rw [hargs, View.argsOf, view_node? hplain, hnode]
      rfl
    rw [if_neg (by simp [(isParam_iff hplain hA).2 hparam])]
    simp only [hnode, hdefinition.trans hd, ← hargs', ← hfree, hfind]
    rfl

theorem argsOf_grow (hplain : c.overrides = []) {t : TypeId} {T : Tree} (ht : ts.Unfolds t T)
    (hgrow : ts.Grows us) : (c.view us).argsOf t = (c.view ts).argsOf t := by
  obtain ⟨node, hnode, -⟩ := ht.exists_node
  rw [View.argsOf, View.argsOf, view_node? hplain, view_node? hplain, hnode, hgrow _ _ hnode]

theorem paramsOf_grow (hplain : c.overrides = []) {t : TypeId} {T : Tree} (ht : ts.Unfolds t T)
    (hgrow : ts.Grows us) (d : DefId) : (c.view us).paramsOf d t = (c.view ts).paramsOf d t := by
  rw [View.paramsOf, View.paramsOf, params_grow hplain ht hgrow]

theorem examine_grow (hplain : c.overrides = [])
    (h : (c.view ts).examine abstraction implementation = .ok i) (hgrow : ts.Grows us) :
    (c.view us).examine abstraction implementation = .ok i := by
  rw [examine_eq_ok_iff hplain] at h ⊢
  obtain ⟨⟨A, hA, hAwf⟩, ⟨I, hI, hIwf⟩, hargs, hfree, hown⟩ := h
  exact ⟨⟨A, hA.grow hgrow, hAwf⟩, ⟨I, hI.grow hgrow, hIwf⟩,
    hargs.trans (argsOf_grow hplain hI hgrow).symm, hfree.trans (params_grow hplain hI hgrow).symm,
    hown⟩

/-- An implementation that passes the examination passes it for any well-formed abstraction. -/
theorem examine_of_grows {abstraction' : TypeId} {A : Tree} (hplain : c.overrides = [])
    (h : (c.view ts).examine abstraction implementation = .ok i) (hgrow : ts.Grows us)
    (hA : us.Unfolds abstraction' A) (hwf : A.Wellformed c.definitions) (hsome : A.definition?.isSome) :
    (c.view us).examine abstraction' implementation = .ok i :=
  (examine_eq_ok_iff hplain).2 ⟨⟨A, hA, hwf, hsome⟩,
    ((examine_eq_ok_iff hplain).1 (examine_grow hplain h hgrow)).2⟩

theorem definitionOf_grow (hplain : c.overrides = []) {t : TypeId} {d : DefId}
    (ht : (c.view ts).definitionOf t = some d) (hgrow : ts.Grows us) :
    (c.view us).definitionOf t = some d := by
  rw [View.definitionOf, view_node? hplain] at ht ⊢
  obtain ⟨node, hnode, hdef⟩ := Option.bind_eq_some_iff.1 ht
  rw [hgrow _ _ hnode, Option.bind_some, hdef]

theorem definition_of_examine (hplain : c.overrides = [])
    (h : (c.view ts).examine abstraction implementation = .ok i) {d : DefId}
    (hd : (c.view ts).definitionOf implementation = some d) : i.definition = d := by
  obtain ⟨-, ⟨I, hI, -, hdef⟩, -⟩ := (examine_eq_ok_iff hplain).1 h
  rw [definitionOf_eq hplain hI, hdef] at hd
  exact Option.some.inj hd

end Catalog

/-! ## One candidate -/

namespace Request

variable {c : Catalog} {base ts us : Types} {r : Request} {k : Closing} {declared : List Param}
  {requested : List TypeId} {candidate : Candidate} {A : Tree} {Fs As Bs : List Tree}

/-- The closing of the implementation under the options of the request. -/
def closing (r : Request) (i : Implementation) : Closing :=
  { definition := i.definition, args := i.args, free := i.free, limits := r.options.limits }

/-- The unification of a candidate with the request. -/
def unification (c : Catalog) (r : Request) (declared : List Param) (patterns concretes : List TypeId) :
    Engine (Except UnifyError Substitution) :=
  Unifier.runFresh r.options.limits <|
    Unifier.unify c { free := declared, closure := .empty } patterns concretes

theorem settles_unification (hc : c.Grounded base) (hbase : base.Grows ts)
    {patterns concretes : List TypeId} (hpatterns : List.Forall₂ ts.Unfolds patterns Bs)
    (hconcretes : List.Forall₂ ts.Unfolds concretes As) :
    Engine.Settles (r.unification c declared patterns concretes) ts fun res us cut =>
      (∀ found, res = .ok found → found.SolvesAll us declared Bs As ∧
        Substitution.empty.Extends us (· ∈ declared) found) ∧
      (cut = false → ∀ h, Rigid declared h → Bs.map (Tree.subst h) = As →
        (∀ p, FreeIn declared Bs p →
          Unifier.Supported c base declared .param (FreeIn declared Bs) p (h p)) →
        ∃ found, res = .ok found ∧ found.Agrees us h ∧
          ∀ p, found.contains p ↔ FreeIn declared Bs p) :=
  Guard.Watches.retire _
    (Unifier.watches_unify hc hbase (Substitution.unfolds_empty ts) hpatterns hconcretes)

/-- What is known of the outcome of a candidate, which starts from `ts` with patterns `Bs`, requested
arguments `As`, and the arguments `Fs` of the implementation. -/
structure Leads (c : Catalog) (base ts us : Types) (r : Request) (k : Closing)
    (declared : List Param) (A : Tree) (Fs As Bs : List Tree)
    (answer : Except UnifyError Substitution) (outcome : Except Rejection TypeId) (cut : Bool) :
    Prop where
  solves : ∀ found, answer = .ok found → found.SolvesAll us declared Bs As ∧
    Substitution.empty.Extends us (· ∈ declared) found
  unifies : cut = false → ∀ h, Rigid declared h → Bs.map (Tree.subst h) = As →
    (∀ p, FreeIn declared Bs p →
      Unifier.Supported c base declared .param (FreeIn declared Bs) p (h p)) →
    ∃ found, answer = .ok found ∧ found.Agrees us h ∧ ∀ p, found.contains p ↔ FreeIn declared Bs p
  sound : ∀ closed, outcome = .ok closed → ∃ found xs σ h, answer = .ok found ∧
    k.Solution c base us Fs found xs σ h ∧
    us.Unfolds closed (.apply k.definition (Fs.map (Tree.subst h))) ∧
    k.Checks c us r.abstraction xs closed
  complete : cut = false → ∀ found h, answer = .ok found → k.Solvable c base us Fs found h →
    Constructible c ts k.definition (Fs.map (Tree.subst h)) →
    Accepts c base A (.apply k.definition (Fs.map (Tree.subst h))) →
    ∃ closed, outcome = .ok closed ∧
      us.Unfolds closed (.apply k.definition (Fs.map (Tree.subst h)))

/-- What a candidate leads to is a solution for the types that unification finds, and a solution is
found unless a guard objects. -/
theorem settles_closeThrough (declared : List Param) (candidate : Candidate)
    (hc : c.Grounded base) (hbase : base.Grows ts)
    (hA : ts.Unfolds r.abstraction A) (hargs : List.Forall₂ ts.Unfolds k.args Fs)
    (hpatterns : List.Forall₂ ts.Unfolds candidate.args Bs)
    (hconcretes : List.Forall₂ ts.Unfolds requested As) :
    Engine.Settles (r.closeThrough c k declared requested candidate) ts fun outcome us cut =>
      ∃ answer, Engine.Begins (r.unification c declared candidate.args requested) ts answer us cut ∧
        Leads c base ts us r k declared A Fs As Bs answer outcome cut := by
  unfold closeThrough
  refine ((settles_unification hc hbase hpatterns hconcretes).begins).bind ?_
  rintro answer us cut hgrow ⟨⟨hsolves, hunifies⟩, hbegins⟩
  cases answer with
  | error e =>
    refine .pure ⟨_, hbegins.mono (.refl us) fun hcut => (Bool.or_eq_false_iff.1 hcut).1, nofun,
      fun hcut => ?_, nofun, nofun⟩
    exact hunifies (Bool.or_eq_false_iff.1 hcut).1
  | ok found =>
    obtain ⟨hsolves, hext⟩ := hsolves found rfl
    have hfound := Substitution.exists_unfolds_of_extends (Substitution.unfolds_empty us) hext
    refine (Closing.settles_close hc (hbase.trans hgrow) (hA.grow hgrow)
      (Types.forall₂_unfolds_grow hargs hgrow) hfound).mono ?_
    rintro outcome vs cut' hvs ⟨hsound, hcomplete⟩
    refine ⟨_, hbegins.mono hvs fun hcut => (Bool.or_eq_false_iff.1 hcut).1, fun found' h => ?_, fun hcut h hrigid hsolved hsupported => ?_,
      fun closed hclosed => ?_, fun hcut found' h heq hk hconstructible habove => ?_⟩
    · cases h
      exact ⟨hsolves.grow hfound hvs, hext.grow hvs⟩
    · obtain ⟨_, heq, hagrees, hcontains⟩ :=
        hunifies (Bool.or_eq_false_iff.1 hcut).1 h hrigid hsolved hsupported
      exact ⟨_, heq, hagrees.grow hvs, hcontains⟩
    · obtain ⟨xs, σ, h, hsolution, hclosed, hchecks⟩ := hsound closed hclosed
      exact ⟨found, xs, σ, h, rfl, hsolution, hclosed, hchecks⟩
    · cases heq
      exact hcomplete (Bool.or_eq_false_iff.1 hcut).2 h (hk.of_grows hfound hvs)
        (hconstructible.grow hgrow) habove

/-! ## All candidates -/

/-- What candidates lead to is collected without repetition, under the policy of the first match only
once, and something is collected if a candidate must lead to something. -/
theorem settles_closedThrough {close : Candidate → Engine (Except Rejection TypeId)}
    {candidates : List Candidate} {closed : List TypeId} {P : Types → Candidate → TypeId → Prop}
    {Q : Candidate → Prop} (hP : ∀ us vs b t, us.Grows vs → P us b t → P vs b t)
    (hclose : ∀ b ∈ candidates, ∀ us, ts.Grows us → Engine.Settles (close b) us fun outcome vs cut =>
      (∀ t, outcome = .ok t → P vs b t) ∧ (cut = false → Q b → ∃ t, outcome = .ok t))
    (hnodup : closed.Nodup) :
    Engine.Settles (r.closedThrough c close candidates closed) ts fun found us cut =>
      (∀ t ∈ found, t ∈ closed ∨ ∃ b ∈ candidates, P us b t) ∧ found.Nodup ∧
        (r.options.ambiguity = .firstMatch → found.length ≤ closed.length + 1) ∧
        (cut = false → (closed ≠ [] ∨ ∃ b ∈ candidates, Q b) → found ≠ []) := by
  induction candidates generalizing ts closed with
  | nil =>
    refine .pure ⟨fun t ht => .inl ht, hnodup, fun _ => Nat.le_succ _, fun _ h => ?_⟩
    exact h.resolve_right (by simp)
  | cons b rest ih =>
    have hrest : ∀ {us}, ts.Grows us → ∀ b ∈ rest, ∀ vs, us.Grows vs →
        Engine.Settles (close b) vs fun outcome ws cut =>
          (∀ t, outcome = .ok t → P ws b t) ∧ (cut = false → Q b → ∃ t, outcome = .ok t) :=
      fun hgrow b hmem vs hvs => hclose b (List.mem_cons_of_mem _ hmem) vs (hgrow.trans hvs)
    rw [closedThrough]
    refine (hclose b (List.mem_cons_self ..) ts (.refl ts)).bind ?_
    rintro (e | t) us cut hgrow ⟨hsound, hleads⟩
    · refine .report_bind c _ ((ih (hrest hgrow) hnodup).mono ?_)
      rintro found vs cut' - ⟨hfound, hnodup', hfirst, hnonempty⟩
      refine ⟨fun t ht => ?_, hnodup', hfirst, fun hcut h => ?_⟩
      · exact (hfound t ht).imp id fun ⟨b, hb, hPb⟩ => ⟨b, List.mem_cons_of_mem _ hb, hPb⟩
      · rw [Bool.or_eq_false_iff] at hcut
        refine hnonempty hcut.2 (h.imp id ?_)
        rintro ⟨b, hb, hQ⟩
        rcases List.mem_cons.1 hb with rfl | hb
        · obtain ⟨t, ht⟩ := hleads hcut.1 hQ
          cases ht
        · exact ⟨b, hb, hQ⟩
    · refine .report_bind c _ ?_
      obtain ⟨hmem, hnodup', hlen, hne⟩ := appendNew_spec t hnodup
      generalize (if t ∈ closed then closed else closed ++ [t]) = closed' at hmem hnodup' hlen hne
      have hfound : ∀ {vs t'}, us.Grows vs → t' ∈ closed' → t' ∈ closed ∨ ∃ b' ∈ b :: rest, P vs b' t' := by
        intro vs t' hvs ht'
        refine ((hmem t').1 ht').imp id ?_
        rintro rfl
        exact ⟨b, List.mem_cons_self .., hP us vs b t' hvs (hsound t' rfl)⟩
      dsimp only
      split
      · exact .pure ⟨fun t' => hfound (.refl us), hnodup', fun _ => hlen, fun _ _ => hne⟩
      · rename_i hall
        refine (ih (hrest hgrow) hnodup').mono ?_
        rintro found vs cut' hvs ⟨hfound', hnodup'', -, hnonempty⟩
        refine ⟨fun t' ht' => ?_, hnodup'', fun hfirst => absurd hfirst hall, fun hcut _ => ?_⟩
        · rcases hfound' t' ht' with ht' | ⟨b', hb', hPb⟩
          · exact hfound hvs ht'
          · exact .inr ⟨b', List.mem_cons_of_mem _ hb', hPb⟩
        · exact hnonempty (Bool.or_eq_false_iff.1 hcut).2 (.inl hne)

theorem settles_closedThrough_singleton {close : Candidate → Engine (Except Rejection TypeId)}
    {P : Except Rejection TypeId → Types → Bool → Prop} (h : Engine.Settles (close candidate) ts P) :
    Engine.Settles (r.closedThrough c close [candidate] []) ts fun found us cut =>
      ∃ outcome, P outcome us cut ∧ found = outcome.toOption.toList := by
  rw [closedThrough]
  refine h.bind ?_
  rintro (e | t) us cut hgrow hP
  · exact .report_bind c _ (.pure ⟨_, by rwa [Bool.or_false], rfl⟩)
  · refine .report_bind c _ ?_
    rw [if_neg List.not_mem_nil, List.nil_append]
    split
    · exact .pure ⟨_, by rwa [Bool.or_false], rfl⟩
    · exact .pure ⟨_, by rwa [Bool.or_false], rfl⟩

/-! ## Requests -/

section

variable {i : Implementation} {P : Except ResolveError Resolution → Types → Bool → Prop}

theorem settles_resolve_of_free_eq_nil (hplain : c.overrides = [])
    (hi : (c.view ts).examine r.abstraction r.implementation = .ok i) (hfree : i.free = [])
    (h : Engine.Settles (Except.ok <$> r.resolveClosed c) ts P) : Engine.Settles (r.resolve c) ts P := by
  unfold resolve
  refine .query_bind c (fun us hus => (c.examine_grow hplain hi hus).trans hi.symm) ?_
  simp only [hi, hfree, List.isEmpty_nil, if_true]
  exact h

/-- An implementation that leaves parameters free is resolved through its open definition. -/
theorem settles_resolve_of_free_ne_nil (hplain : c.overrides = [])
    (hi : (c.view ts).examine r.abstraction r.implementation = .ok i) (hfree : i.free ≠ [])
    (h : Engine.Settles (Engine.definitionType c i.definition >>= fun
      | none => pure (.error (.unknownDefinition i.definition))
      | some opened => .ok <$> r.resolveOpen c i opened) ts P) :
    Engine.Settles (r.resolve c) ts P := by
  unfold resolve
  refine .query_bind c (fun us hus => (c.examine_grow hplain hi hus).trans hi.symm) ?_
  simp only [hi, List.isEmpty_iff, if_neg hfree]
  exact h

end

end Request

end Generics
