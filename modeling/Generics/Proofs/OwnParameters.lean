import Generics.Proofs.Construction
import Generics.Proofs.KeptPromises
import Generics.Proofs.Resolution

/-!
# Definitions and their own parameters

A definition takes its own parameters.  A parameter declares whatever it demands, and the constraints
of a parameter are what the enumeration above it finds before its guard can object, so that each
constraint costs one step at most.  What is constructed is the open type of the definition.
-/

namespace Generics

/-! ## Special constraints -/

theorem Special.includes_of_mem_demands {s : Special} {m : Demand} (h : m ∈ s.demands) :
    s.includes m.toSpecial := by
  cases m with
  | reference => exact (mem_demands_iff (by simp)).1 h
  | value => exact (mem_demands_iff (by simp)).1 h
  | constructible => exact (mem_demands_iff (by simp)).1 h
  | unnamed bits =>
    obtain ⟨rfl, -⟩ := unnamed_mem_demands_iff.1 h
    simp only [includes, Demand.toSpecial, unnamedBits, ← UInt8.and_assoc, UInt8.and_self,
      beq_self_eq_true]

theorem ParamDecl.declares_of_mem_demands {decl : ParamDecl} {m : Demand}
    (h : m ∈ decl.special.demands) : decl.declares m := by
  rw [declares, Special.includes_of_mem_demands h, Bool.true_or]

/-- A parameter lacks nothing that it demands of its arguments, whatever bits these demands are. -/
theorem Catalog.isEmpty_missing_own {c : Catalog} {base ts : Types} {t : TypeId} {p : Param}
    {decl : ParamDecl} (hc : c.Grounded base) (hbase : base.Grows ts)
    (ht : ts.Unfolds t (.param p)) (hdecl : c.definitions.param? p = some decl) :
    ((c.view ts).missing t decl.special).isEmpty := by
  refine View.isEmpty_missing_iff.2 fun m hm => (meets_iff hc hbase ht).2 ?_
  exact .promised (.declared hdecl (ParamDecl.declares_of_mem_demands hm))

/-! ## Constraints -/

namespace Tree

/-- The parameters of `d`, of which there are `n`. -/
def ownParams (d : DefId) (n : Nat) : List Tree := (List.range n).map fun i => param ⟨d, i⟩

theorem assign_ownParams (d : DefId) (n : Nat) : assign d (ownParams d n) = param := by
  funext p
  rw [assign]
  split
  · rename_i h
    rw [ownParams, List.getElem?_map]
    rcases Nat.lt_or_ge p.index n with hi | hi
    · rw [List.getElem?_range hi, ← h]
      rfl
    · rw [List.getElem?_eq_none (by simpa using hi)]
      rfl
  · rfl

end Tree

namespace Comparison

variable {c : Catalog} {base ts us : Types} {target source : TypeId} {K S : Tree}
  {g g' : Guard (TypeId × TypeId)} {accepts : TypeId → TypeId → Comparison Bool}

theorem settles_acceptsAbove_direct (hc : c.Grounded base) (hbase : base.Grows ts)
    (ht : ts.Unfolds target K) (hs : ts.Unfolds source S) (hK : DirectSupertype c base S K) :
    Engine.Settles ((acceptsAbove c accepts target source).run g) ts fun r _ _ => r = (true, g) := by
  rw [acceptsAbove, StateT.run_bind, StateT.run_monadLift, bind_assoc]
  refine (Engine.settles_supertypes_direct hc hbase hs).bind fun found us _ hgrow hfound => ?_
  obtain ⟨u, hu, hK'⟩ := hfound K hK
  have hmem : found.contains target := by
    rw [InternTable.contains_iff_mem_toList, (ht.grow hgrow).inj hK']
    exact hu
  simp only [pure_bind, hmem, if_true]
  exact .pure rfl

/-- The guard is visiting nothing and has taken at most `n` steps. -/
structure Idle (n : Nat) (g : Guard (TypeId × TypeId)) : Prop where
  keeps : Guard.Keeps { limits := .assignability } g
  steps : g.iterations ≤ n

theorem settles_accepts_direct (hc : c.Grounded base) (hbase : base.Grows ts)
    (ht : ts.Unfolds target K) (hs : ts.Unfolds source S) (hK : DirectSupertype c base S K) {n : Nat}
    (hg : Idle n g) (hn : n < Limits.assignability.maxIterations.toNat) :
    Engine.Settles ((Comparison.accepts c target source).run g) ts fun r _ _ =>
      r.1 = true ∧ Idle (n + 1) r.2 := by
  rw [Comparison.accepts, acceptsTo]
  split
  · exact .pure ⟨rfl, hg.keeps, Nat.le_succ_of_le hg.steps⟩
  obtain ⟨g', henter⟩ : ∃ g', g.enter (target, source) = (.entered, g') := by
    obtain ⟨⟨hvisiting, hdepth, hlimits, -⟩, hsteps⟩ := hg
    refine ⟨_, Guard.enter_eq_entered ?_ ?_ ?_⟩
    · rw [hlimits]
      exact Nat.lt_of_le_of_lt hsteps hn
    · rw [hvisiting]
      exact List.not_mem_nil
    · rw [hdepth, hlimits]
      decide
  rw [StateT.run_bind]
  change Engine.Settles (pure (g.enter (target, source)) >>= _) ts _
  rw [pure_bind, henter]
  dsimp only
  rw [StateT.run_bind]
  refine (settles_acceptsAbove_direct hc hbase ht hs hK).bind ?_
  rintro _ us _ - rfl
  change Engine.Settles (Engine.leave g' (target, source) >>= fun g => pure (true, g)) us _
  refine .leave_bind (Guard.leave_of_enter henter) (.pure ⟨rfl, ?_, ?_⟩)
  · exact hg.keeps.trans ⟨rfl, rfl, rfl, id⟩
  · exact Nat.le_trans (Nat.min_le_left ..) (Nat.succ_le_succ hg.steps)

/-- Whether a requirement may cost a step. -/
def costs : Requirement → Bool
  | .special .. => false
  | .constraint .. => true

/-- A requirement that a parameter makes of itself. -/
inductive OfItself (c : Catalog) (ts : Types) : Requirement → Prop
  | special {p : Param} {decl : ParamDecl} {t : TypeId} (hdecl : c.definitions.param? p = some decl)
      (ht : ts.Unfolds t (.param p)) : OfItself c ts (.special p t decl.special)
  | constraint {p : Param} {decl : ParamDecl} {t k : TypeId}
      (hdecl : c.definitions.param? p = some decl) (hk : k ∈ decl.constraints)
      (ht : ts.Unfolds t (.param p)) : OfItself c ts (.constraint p t k)

theorem OfItself.grow {r : Requirement} (h : OfItself c ts r) (hgrow : ts.Grows us) :
    OfItself c us r := by
  cases h with
  | special hdecl ht => exact .special hdecl (ht.grow hgrow)
  | constraint hdecl hk ht => exact .constraint hdecl hk (ht.grow hgrow)

/-- What a parameter requires of itself holds, and to find out costs one step at most. -/
theorem settles_violation?_own (hc : c.Grounded base) (hbase : base.Grows ts) {σ : Substitution}
    (hσ : σ.Unfolds ts .param) {r : Requirement} (hr : OfItself c ts r) {n : Nat} (hg : Idle n g)
    (hn : n + [r].countP costs ≤ Limits.assignability.maxIterations.toNat) :
    Engine.Settles ((violation? c σ r).run g) ts fun r' _ _ =>
      r'.1 = none ∧ Idle (n + [r].countP costs) r'.2 := by
  cases hr with
  | @special p decl t hdecl ht =>
    rw [violation?, StateT.run_bind, StateT.run_monadLift, bind_assoc]
    refine .query_bind c (fun us hus => Catalog.missing_grow (hc.grow hbase) ht hus _) ?_
    rw [pure_bind, if_pos (c.isEmpty_missing_own hc hbase ht hdecl)]
    exact .pure ⟨rfl, hg⟩
  | @constraint p decl t k hdecl hk ht =>
    obtain ⟨K, hK⟩ := hc.constraints p decl hdecl k hk
    have hself : K.subst .param = K := Tree.subst_eq_self fun _ _ => rfl
    rw [violation?, StateT.run_bind, StateT.run_monadLift, bind_assoc]
    refine (Engine.settles_instantiate hc.plain (hK.grow hbase) hσ).bind ?_
    rintro u us _ hgrow ⟨hu, -, -⟩
    rw [hself] at hu
    rw [pure_bind, StateT.run_bind]
    refine (settles_accepts_direct hc (hbase.trans hgrow) hu (ht.grow hgrow)
      (.constraint rfl hdecl hk hK) hg hn).bind ?_
    rintro ⟨_, g'⟩ vs _ - ⟨rfl, hg'⟩
    exact .pure ⟨rfl, hg'⟩

theorem settles_findSomeM?_own (hc : c.Grounded base) (hbase : base.Grows ts) {σ : Substitution}
    (hσ : σ.Unfolds ts .param) {rs : List Requirement} (hrs : ∀ r ∈ rs, OfItself c ts r) {n : Nat}
    (hg : Idle n g) (hn : n + rs.countP costs ≤ Limits.assignability.maxIterations.toNat) :
    Engine.Settles ((rs.findSomeM? (violation? c σ)).run g) ts fun r _ _ => r.1 = none := by
  induction rs generalizing ts g n with
  | nil =>
    rw [List.findSomeM?_nil]
    exact .pure rfl
  | cons r rs ih =>
    rw [← List.singleton_append, List.countP_append, ← Nat.add_assoc] at hn
    rw [List.findSomeM?_cons, StateT.run_bind]
    refine (settles_violation?_own hc hbase hσ (hrs r List.mem_cons_self) hg
      (Nat.le_trans (Nat.le_add_right ..) hn)).bind ?_
    rintro ⟨_, g'⟩ us _ hgrow ⟨rfl, hg'⟩
    exact ih (hbase.trans hgrow) (hσ.grow hgrow)
      (fun r' hr' => (hrs r' (List.mem_cons_of_mem _ hr')).grow hgrow) hg' hn

end Comparison

/-- How many constraints the parameters of a definition have in total. -/
def Definition.constraintCount (info : Definition) : Nat :=
  (info.params.flatMap (·.constraints)).length

theorem countP_requirements {info : Definition} {d : DefId} {args : List TypeId}
    (h : info.arity = args.length) :
    (info.requirements d args).countP Comparison.costs = info.constraintCount := by
  have hparam : ∀ (decl : ParamDecl) p a,
      (decl.requirements p a).countP Comparison.costs = decl.constraints.length := by
    intro decl p a
    simp [ParamDecl.requirements, Comparison.costs, Function.comp_def]
  have hparams : (info.params.zip args).zipIdx.map (fun x => x.1.1) = info.params := by
    change (info.params.zip args).zipIdx.map (Prod.fst ∘ Prod.fst) = info.params
    rw [← List.map_map, List.zipIdx_map_fst]
    exact List.map_fst_zip (Nat.le_of_eq h)
  rw [Definition.requirements, Definition.constraintCount, List.countP_flatMap, List.length_flatMap]
  conv_rhs => rw [← hparams, List.map_map]
  exact congrArg List.sum (List.map_congr_left fun x _ => hparam ..)

/-- What a definition requires of its own parameters. -/
theorem ofItself_of_mem_requirements {c : Catalog} {ts : Types} {d : DefId} {info : Definition}
    {args : List TypeId} (hinfo : c.definitions.get? d = some info)
    (hargs : List.Forall₂ ts.Unfolds args (Tree.ownParams d info.arity)) {r : Requirement}
    (hr : r ∈ info.requirements d args) : Comparison.OfItself c ts r := by
  obtain ⟨i, decl, a, hdecl, ha, hr⟩ := mem_requirements_iff.1 hr
  have hdecl' : c.definitions.param? ⟨d, i⟩ = some decl := by
    rw [Definitions.param?, hinfo, Option.bind_some, hdecl]
  have hown : ts.Unfolds a (.param ⟨d, i⟩) := by
    obtain ⟨T, hT, haT⟩ := exists_getElem?_of_forall₂ hargs ha
    have hi : i < info.arity := (List.getElem?_eq_some_iff.1 hdecl).1
    rw [Tree.ownParams, List.getElem?_map, List.getElem?_range hi] at hT
    cases hT
    exact haT
  rcases hr with rfl | ⟨k, hk, rfl⟩
  · exact .special hdecl' hown
  · exact .constraint hdecl' hk hown

namespace Engine

variable {c : Catalog} {base ts : Types} {d : DefId} {info : Definition} {args : List TypeId}

/-- Construction from a definition's own parameters succeeds. -/
theorem settles_construct_own (hc : c.Grounded base) (hbase : base.Grows ts)
    (hinfo : c.definitions.get? d = some info)
    (hcount : info.constraintCount ≤ Limits.assignability.maxIterations.toNat)
    (hargs : List.Forall₂ ts.Unfolds args (Tree.ownParams d info.arity)) :
    Settles (construct c d args) ts fun r us _ =>
      ∃ t, r = .ok t ∧ us.Unfolds t (.opened d info.arity) := by
  have hok : Settles (construct c d args) ts fun r _ _ => ∃ t, r = .ok t := by
    have harity : info.arity = args.length := by simpa [Tree.ownParams] using hargs.length_eq.symm
    have hσ := Substitution.unfolds_ofArgs d hargs
    rw [Tree.assign_ownParams] at hσ
    rw [construct, hinfo]
    dsimp only
    rw [if_neg (not_not.2 harity)]
    have hnone := Comparison.settles_findSomeM?_own hc hbase hσ
      (fun r hr => ofItself_of_mem_requirements hinfo hargs hr)
      (g := { limits := .assignability }) (n := 0) ⟨.refl _, Nat.le_refl _⟩
      (by rwa [countP_requirements harity, Nat.zero_add])
    refine Settles.bind (P := fun r _ _ => r = none) ?_ ?_
    · refine hnone.bind ?_
      rintro ⟨r, g⟩ us _ - hr
      exact .retire_bind g (.pure hr)
    · rintro _ us _ - rfl
      refine (Settles.intern (P := fun _ _ _ => True) trivial).bind fun t vs _ _ _ => ?_
      exact .report_bind c _ (.pure ⟨t, rfl⟩)
  refine (hok.and (settles_construct hc hbase hargs)).mono ?_
  rintro r us cut - ⟨⟨t, rfl⟩, hr, -⟩
  exact ⟨t, rfl, (hr t rfl).1⟩

/-- The types of a definition's own parameters. -/
theorem forall₂_ownParams {n : Nat}
    (h : args.map ts.get? = (List.range n).map fun i => some (.param ⟨d, i⟩)) :
    List.Forall₂ ts.Unfolds args (Tree.ownParams d n) := by
  have hnodes : List.Forall₂ Eq (args.map ts.get?)
      ((List.range n).map fun i => some (.param ⟨d, i⟩)) := h ▸ List.forall₂_refl _
  rw [List.forall₂_map_left_iff, List.forall₂_map_right_iff] at hnodes
  rw [Tree.ownParams, List.forall₂_map_right_iff]
  exact hnodes.imp fun _ _ => .param

/-- A definition takes its own parameters, whatever it demands of them, and what it makes of them is
its open type, whichever of the two is asked for first. -/
theorem construct_own {s : Session} (hc : c.Grounded s.types) (hinfo : c.definitions.get? d = some info)
    (hcount : info.constraintCount ≤ 100000)
    (hargs : args.map s.types.get? = (List.range info.arity).map fun i => some (.param ⟨d, i⟩)) :
    (∃ t, (construct c d args s).1 = .ok t ∧
      ∀ s' : Session, (construct c d args s).2.types.Grows s'.types →
        (definitionType c d s').1 = some t) ∧
    ∃ t, (definitionType c d s).1 = some t ∧
      ∀ s' : Session, (definitionType c d s).2.types.Grows s'.types →
        (construct c d args s').1 = .ok t := by
  have hown := forall₂_ownParams hargs
  have hopened : ∀ s' : Session, ∃ t, (definitionType c d s').1 = some t ∧
      s'.types.Grows (definitionType c d s').2.types ∧
      (definitionType c d s').2.types.Unfolds t (.opened d info.arity) := by
    intro s'
    obtain ⟨hgrow, -, h⟩ := (settles_definitionType c d s'.types).elim rfl
    rw [hinfo] at h
    obtain ⟨t, ht, hunfolds⟩ := h
    exact ⟨t, ht, hgrow, hunfolds⟩
  have hconstruct : ∀ s' : Session, s.types.Grows s'.types →
      ∃ t, (construct c d args s').1 = .ok t ∧
        s'.types.Grows (construct c d args s').2.types ∧
        (construct c d args s').2.types.Unfolds t (.opened d info.arity) := by
    intro s' hgrow
    obtain ⟨hgrow', t, ht, hunfolds⟩ := (settles_construct_own hc hgrow hinfo hcount
      (Types.forall₂_unfolds_grow hown hgrow)).elim rfl
    exact ⟨t, ht, hgrow', hunfolds⟩
  constructor
  · obtain ⟨t, ht, -, hunfolds⟩ := hconstruct s (.refl _)
    refine ⟨t, ht, fun s' hs' => ?_⟩
    obtain ⟨t', ht', hgrow, hunfolds'⟩ := hopened s'
    rw [ht', (hunfolds.grow (hs'.trans hgrow)).inj hunfolds']
  · obtain ⟨t, ht, hgrow, hunfolds⟩ := hopened s
    refine ⟨t, ht, fun s' hs' => ?_⟩
    obtain ⟨t', ht', hgrow', hunfolds'⟩ := hconstruct s' (hgrow.trans hs')
    rw [ht', (hunfolds.grow (hs'.trans hgrow')).inj hunfolds']

end Engine

namespace EndlessSample

/-- An interface `Grow<T> : Grow<Grow<T>>` whose parameter is bounded by `Grow<Grow<T>>` and by itself,
and demands every bit but that of a constructor. -/
def catalog : Catalog where
  definitions.entries := #[
    { kind := .interfaceType
      name := ⟨1⟩
      params := [{ name := ⟨2⟩, constraints := [⟨2⟩, ⟨0⟩], special := ⟨0xFB⟩ }]
      interfaces := [⟨2⟩] }]

/-- The parameter of `Grow`, and `Grow` over it once and twice. -/
def session : Session where
  types := .ofNodes [.param ⟨⟨1⟩, 0⟩, .app ⟨1⟩ [⟨0⟩], .app ⟨1⟩ [⟨1⟩]]

/-- What lies above the parameter has no end, yet `Grow` takes it. -/
theorem construct_own_endless : catalog.Grounded session.types ∧
    (Engine.climbAll catalog ⟨0⟩ session).1.guard.exceeded = true ∧
    (Engine.construct catalog ⟨1⟩ [⟨0⟩] (Engine.definitionType catalog ⟨1⟩ session).2).1 =
      .ok ⟨1⟩ := by
  have hc : catalog.Grounded session.types := Catalog.WellDeclared.grounded (by decide +kernel)
  have hargs : [⟨0⟩].map session.types.get? =
      (List.range 1).map fun i => some (Node.param ⟨⟨1⟩, i⟩) := by decide +kernel
  have hcount : (catalog.definitions.entries[0]).constraintCount ≤ 100000 := by decide
  obtain ⟨-, t, ht, hconstruct⟩ := Engine.construct_own hc rfl hcount hargs
  have ht' : (Engine.definitionType catalog ⟨1⟩ session).1 = some ⟨1⟩ := by decide +kernel
  obtain rfl := Option.some.inj (ht.symm.trans ht')
  exact ⟨hc, by decide +kernel, hconstruct _ (.refl _)⟩

end EndlessSample

end Generics
