import Generics.Proofs.Cutoff
import Generics.Proofs.Mirroring.Types
import Generics.Proofs.Sharing

/-!
# Reusing a checker

A checker may be asked one question after another, and a unifier may serve one call after another, also
after calls that have failed.  As long as their guard has steps left, each answer is the answer of a fresh
one.  Construction asks one checker about all constraints; so it takes arguments if each requirement
holds when it is checked by itself, and otherwise it reports the first that does not.
-/

namespace Generics

/-- Questions put to one checker. -/
def Comparison.acceptsEach (c : Catalog) (queries : List (TypeId × TypeId)) :
    Comparison (List Bool) :=
  queries.mapM fun q => accepts c q.1 q.2

/-- Calls to one unifier.  A call that fails does not end the series. -/
def Unifier.unifyEach (c : Catalog) (u : Unknowns) (queries : List (List TypeId × List TypeId)) :
    StateT (Guard Param) Engine (List (Except UnifyError Substitution)) :=
  queries.mapM fun q => (unify c u q.1 q.2).run

/-- The violation of a requirement, if a check of its own finds that it is violated under `σ`. -/
def Requirement.violation? (c : Catalog) (σ : Substitution) :
    Requirement → Engine (Option ConstructError)
  | .special p argument demanded => do
    let missing ← Engine.query c (·.missing argument demanded)
    pure (if missing.isEmpty then none else some (.specialViolation p argument missing))
  | .constraint p argument k => do
    let k ← Engine.instantiate c k σ
    let accepted ← Engine.isAssignable c k argument
    pure (if accepted then none else some (.constraintViolation p argument k))

/-- How often the comparisons of a construction ask the guard that they share. -/
def Engine.constructEntries (c : Catalog) (d : DefId) (args : List TypeId) (s : Session) : Nat :=
  match c.definitions.get? d with
  | none => 0
  | some info =>
    if info.arity ≠ args.length then 0
    else
      Guard.entries .assignability
        ((info.requirements d args).findSomeM? (Comparison.violation? c (.ofArgs d args))) s

variable {c : Catalog} {base ts : Types} {d : DefId} {info : Definition} {args : List TypeId}
  {Ts : List Tree} {s s' : Session}

/-! ## Questions -/

theorem separates_acceptsEach (c : Catalog) (queries : List (TypeId × TypeId)) :
    Guard.Separates .assignability (Comparison.acceptsEach c queries)
      (queries.mapM fun q => Engine.isAssignable c q.1 q.2) :=
  .mapM fun q => separates_accepts c q.1 q.2

theorem separates_unifyEach (c : Catalog) (limits : Limits) (u : Unknowns)
    (queries : List (List TypeId × List TypeId)) :
    Guard.Separates limits (Unifier.unifyEach c u queries)
      (queries.mapM fun q => Unifier.runFresh limits (Unifier.unify c u q.1 q.2)) :=
  .mapM fun q => separates_unify c limits u q.1 q.2

/-- Questions put one after another are answered as on any larger store. -/
theorem Engine.mapM_isAssignable_eq (hc : c.Grounded s.types) {queries : List (TypeId × TypeId)}
    (hknown : ∀ q ∈ queries, s.types.Finite q.1 ∧ s.types.Finite q.2)
    (hgrow : s.types.Grows s'.types) :
    (queries.mapM (fun q => isAssignable c q.1 q.2) s).1 =
      queries.map fun q => (isAssignable c q.1 q.2 s').1 := by
  have hsettles : Settles (queries.mapM fun q => isAssignable c q.1 q.2) s.types fun bs us _ =>
      List.Forall₂ (fun q b => Lasts (isAssignable c q.1 q.2) us b) queries bs := by
    refine .mapM_lasts fun q hq us hus => ?_
    obtain ⟨⟨T, hT⟩, S, hS⟩ := hknown q hq
    exact (settles_isAssignable hc hus (hT.grow hus) (hS.grow hus)).mono fun _ _ _ _ _ => trivial
  obtain ⟨hgrow', hlasts⟩ := hsettles.elim rfl
  refine (answers_eq_of_lasts hlasts (.refl _)).trans (List.map_congr_left fun q hq => ?_)
  obtain ⟨⟨T, hT⟩, S, hS⟩ := hknown q hq
  rw [isAssignable_grow hc hT hS hgrow, isAssignable_grow hc hT hS hgrow']

/-- Calls made one after another are answered as on any store that is larger afterwards. -/
theorem Unifier.mapM_unify_eq (hc : c.Grounded s.types) {limits : Limits} {u : Unknowns}
    {queries : List (List TypeId × List TypeId)} (hu : u.closure.Finite s.types)
    (hknown : ∀ q ∈ queries, (∀ t ∈ q.1, s.types.Finite t) ∧ ∀ t ∈ q.2, s.types.Finite t)
    (hgrow : (queries.mapM (fun q => runFresh limits (unify c u q.1 q.2)) s).2.types.Grows s'.types) :
    (queries.mapM (fun q => runFresh limits (unify c u q.1 q.2)) s).1 =
      queries.map fun q => (runFresh limits (unify c u q.1 q.2) s').1 := by
  have hsettles : Engine.Settles (queries.mapM fun q => runFresh limits (unify c u q.1 q.2)) s.types
      fun bs us _ => List.Forall₂
        (fun q b => Engine.Lasts (runFresh limits (unify c u q.1 q.2)) us b) queries bs := by
    refine .mapM_lasts fun q hq us hus => ?_
    obtain ⟨hpatterns, hconcretes⟩ := hknown q hq
    obtain ⟨f, hf⟩ := hu
    obtain ⟨Ps, hPs⟩ := forall₂_of_forall_exists hpatterns
    obtain ⟨Cs, hCs⟩ := forall₂_of_forall_exists hconcretes
    have hunify : Engine.Settles (runFresh limits (unify c u q.1 q.2)) us _ :=
      Guard.Watches.retire limits (watches_unify hc hus (hf.grow hus)
        (Types.forall₂_unfolds_grow hPs hus) (Types.forall₂_unfolds_grow hCs hus))
    exact hunify.mono fun _ _ _ _ _ => trivial
  exact Engine.answers_eq_of_lasts (hsettles.elim rfl).2 hgrow

/-! ## Requirements -/

namespace Requirement

variable {σ : Substitution} {f : Param → Tree} {r : Requirement}

theorem separates_violation? (c : Catalog) (σ : Substitution) (r : Requirement) :
    Guard.Separates .assignability (Comparison.violation? c σ r) (r.violation? c σ) := by
  cases r with
  | special p argument demanded =>
    exact .bind (.lift .assignability (Conduct.query c _)) fun _ => .pure .assignability _
  | constraint p argument k =>
    refine .bind (.lift .assignability (Conduct.instantiate c k σ)) fun k => ?_
    exact .bind (separates_accepts c k argument) fun _ => .pure .assignability _

theorem settles_violation? (hc : c.Grounded base) (hbase : base.Grows ts) (hσ : σ.Unfolds ts f)
    (hr : Comparison.Known base ts r) : Engine.Settles (r.violation? c σ) ts fun _ _ _ => True := by
  cases r with
  | special p argument demanded =>
    obtain ⟨T, hT⟩ := hr
    exact .query_bind c (fun us hus => Catalog.missing_grow (hc.grow hbase) hT hus demanded)
      (.pure trivial)
  | constraint p argument k =>
    obtain ⟨⟨K, hK⟩, T, hT⟩ := hr
    refine (Engine.settles_instantiate hc.plain (hK.grow hbase) hσ).bind ?_
    rintro u us _ hus ⟨hu, -⟩
    refine (Engine.settles_isAssignable hc (hbase.trans hus) hu (hT.grow hus)).bind ?_
    exact fun _ _ _ _ _ => .pure trivial

/-- Whether a requirement is violated does not change as a store grows. -/
theorem mirrors_violation? {us : Types} (hc : c.Grounded base) (hbase : base.Grows ts)
    (hgrow : ts.Grows us) (hσ : σ.Twin (fun _ => True) ts us σ) (hr : Comparison.Known base ts r) :
    Engine.Mirrors (r.violation? c σ) (r.violation? c σ) ts us
      fun v v' _ _ => v = none ↔ v' = none := by
  have htwin : ∀ {t}, ts.Finite t → Generics.Twin (fun _ => True) ts us t t := fun ⟨T, hT⟩ =>
    ⟨T, T.over_true, hT, hT.grow hgrow⟩
  cases r with
  | special p argument demanded =>
    refine .query_bind c c (.pure ?_)
    rw [hc.coincide.missing_eq hbase (hbase.trans hgrow) (htwin hr)]
  | constraint p argument k =>
    obtain ⟨⟨K, hK⟩, hargument⟩ := hr
    refine (Engine.mirrors_instantiate hc.coincide (htwin ⟨K, hK.grow hbase⟩) hσ).bind ?_
    intro k k' ts' us' hts' hus' hk
    refine (Engine.mirrors_isAssignable hc.coincide (hbase.trans hts') ((hbase.trans hgrow).trans hus')
      hk ((htwin hargument).grow hts' hus')).bind ?_
    rintro b _ _ _ - - rfl
    exact .pure (by cases b <;> simp)

/-- A check of its own tells at any time whether a requirement is violated. -/
theorem settles_verdict (hc : c.Grounded s.types) (hgrow : s.types.Grows ts)
    (hinfo : c.definitions.get? d = some info) (hargs : List.Forall₂ s.types.Unfolds args Ts)
    (hr : r ∈ info.requirements d args) :
    Engine.Settles (r.violation? c (.ofArgs d args)) ts
      fun o _ _ => o = none ↔ (r.violation? c (.ofArgs d args) s).1 = none := by
  have hargs' := Types.forall₂_unfolds_grow hargs hgrow
  have htwins : List.Forall₂ (Generics.Twin (fun _ => True) s.types ts) args args :=
    List.forall₂_same.2 fun a ha => by
      obtain ⟨T, -, hT⟩ := exists_of_mem_left hargs ha
      exact ⟨T, T.over_true, hT, hT.grow hgrow⟩
  obtain ⟨o, us, cut, hrun, hus, -, hagain⟩ := settles_violation? hc hgrow
    (Substitution.unfolds_ofArgs d hargs') (Comparison.known_of_mem_requirements hc hinfo hargs' hr)
  obtain ⟨o₀, _, _, _, _, hrun₀, hrun', -, -, hiff⟩ := mirrors_violation? hc (.refl _) hgrow
    (Substitution.twin_ofArgs trivial htwins) (Comparison.known_of_mem_requirements hc hinfo hargs hr)
  obtain ⟨rfl, -⟩ := hrun.unique hrun'
  refine ⟨o, us, cut, hrun, hus, ?_, hagain⟩
  rw [(hrun₀ s rfl).1, hiff]

end Requirement

/-! ## Construction -/

namespace Engine

/-- The definition `d` refuses `args` because of `e`: it is unknown, it takes another number of arguments,
or `e` reports the first requirement which is violated when it is checked by itself. -/
inductive Refuses (c : Catalog) (d : DefId) (args : List TypeId) (s : Session) (us : Types) :
    ConstructError → Prop
  | unknown (h : c.definitions.get? d = none) : Refuses c d args s us (.unknownDefinition d)
  | arity {info : Definition} (hinfo : c.definitions.get? d = some info)
      (h : info.arity ≠ args.length) :
      Refuses c d args s us (.arityMismatch info.arity args.length)
  | requirement {info : Definition} {done rest : List Requirement} {r : Requirement}
      {e : ConstructError} (hinfo : c.definitions.get? d = some info)
      (harity : info.arity = args.length) (hsplit : info.requirements d args = done ++ r :: rest)
      (hdone : ∀ q ∈ done, (q.violation? c (.ofArgs d args) s).1 = none)
      (hviolated : (r.violation? c (.ofArgs d args) s).1 ≠ none)
      (hreport : ∀ s' : Session, us.Grows s'.types →
        (r.violation? c (.ofArgs d args) s').1 = some e) : Refuses c d args s us e

/-- What is refused violates a requirement. -/
theorem Refuses.not_takes {us : Types} {e : ConstructError} (h : Refuses c d args s us e) :
    ¬∃ info, c.definitions.get? d = some info ∧ info.arity = args.length ∧
      ∀ r ∈ info.requirements d args, (r.violation? c (.ofArgs d args) s).1 = none := by
  rintro ⟨info', hinfo', harity', hall⟩
  cases h with
  | unknown h => cases h.symm.trans hinfo'
  | arity hinfo h =>
    cases hinfo.symm.trans hinfo'
    exact h harity'
  | requirement hinfo harity hsplit hdone hviolated =>
    cases hinfo.symm.trans hinfo'
    exact hviolated (hall _ (hsplit ▸ List.mem_append_right _ List.mem_cons_self))

/-- Construction is one search under a shared guard. -/
theorem construct_apply (hinfo : c.definitions.get? d = some info)
    (harity : info.arity = args.length) (s : Session) :
    let first := Guard.alone .assignability
      ((info.requirements d args).findSomeM? (Comparison.violation? c (.ofArgs d args))) s
    (∀ e, first.1 = some e → construct c d args s = (.error e, first.2)) ∧
      (first.1 = none → ∃ t, (construct c d args s).1 = .ok t) := by
  simp only [construct, hinfo]
  rw [if_neg (not_not_intro harity), bind_apply]
  refine ⟨fun e he => ?_, fun hnone => ?_⟩
  · change (Comparison.runFresh _ s).1 = some e at he
    rw [he]
    rfl
  · change (Comparison.runFresh _ s).1 = none at hnone
    rw [hnone]
    exact ⟨_, rfl⟩

/-- While the shared guard has steps left, construction takes arguments if checks of their own find no
requirement violated, and it refuses all others because of the first that is. -/
theorem construct_takes_or_refuses (hc : c.Grounded s.types) (hargs : ∀ a ∈ args, s.types.Finite a)
    (hsteps : constructEntries c d args s ≤ Limits.assignability.maxIterations.toNat) :
    ((∃ t, (construct c d args s).1 = .ok t) ∧ ∃ info, c.definitions.get? d = some info ∧
        info.arity = args.length ∧ ∀ r ∈ info.requirements d args,
          (r.violation? c (.ofArgs d args) s).1 = none) ∨
      ∃ e, (construct c d args s).1 = .error e ∧
        Refuses c d args s (construct c d args s).2.types e := by
  unfold constructEntries at hsteps
  cases hinfo : c.definitions.get? d with
  | none =>
    have hconstruct : construct c d args s = (.error (.unknownDefinition d), s) := by
      rw [construct, hinfo]
      rfl
    exact .inr ⟨_, congrArg Prod.fst hconstruct, .unknown hinfo⟩
  | some info =>
    by_cases harity : info.arity = args.length
    swap
    · have hconstruct : construct c d args s =
          (.error (.arityMismatch info.arity args.length), s) := by
        simp only [construct, hinfo]
        rw [if_pos harity]
        rfl
      exact .inr ⟨_, congrArg Prod.fst hconstruct, .arity hinfo harity⟩
    simp only [hinfo] at hsteps
    rw [if_neg (not_not_intro harity)] at hsteps
    obtain ⟨As, hAs⟩ := forall₂_of_forall_exists hargs
    obtain ⟨herror, hok⟩ := construct_apply hinfo harity s
    obtain ⟨hanswer, htypes⟩ := (Guard.Separates.findSomeM? (l := info.requirements d args)
      (Requirement.separates_violation? c (.ofArgs d args))).alone_eq hsteps
    have hsearch := Settles.elim (s := s) (Settles.findSomeM? fun r hr us hus =>
      Requirement.settles_verdict hc hus hinfo hAs hr) rfl
    rw [← hanswer, ← htypes] at hsearch
    obtain ⟨-, ⟨hnone, hall⟩ | ⟨done, r, rest, e, hsplit, hdone, hr, hsome, hlasts⟩⟩ := hsearch
    · exact .inl ⟨hok hnone, info, rfl, harity, hall⟩
    · refine .inr ⟨e, congrArg Prod.fst (herror e hsome), .requirement hinfo harity hsplit hdone hr ?_⟩
      rw [herror e hsome]
      exact fun s' hs' => hlasts.answer_eq hs'

end Engine

/-- One checker, one unifier and the checker of a construction, as long as their guards stay within the
limit of steps: a checker answers a series of questions as fresh checkers do, now and on every larger
store; a unifier serves a series of calls, failing ones among them, as fresh unifiers do, one after
another and again at any later time; and a construction succeeds exactly when checks of their own find no
requirement violated, and otherwise reports the first that is. -/
theorem reuse_keeps_answers (c : Catalog) (s : Session) (hc : c.Grounded s.types) :
    (∀ queries : List (TypeId × TypeId),
      (∀ q ∈ queries, s.types.Finite q.1 ∧ s.types.Finite q.2) →
      Guard.entries .assignability (Comparison.acceptsEach c queries) s ≤
        Limits.assignability.maxIterations.toNat →
      (Comparison.runFresh (Comparison.acceptsEach c queries) s).1 =
          (queries.mapM (fun q => Engine.isAssignable c q.1 q.2) s).1 ∧
        ∀ s' : Session, s.types.Grows s'.types →
          (Comparison.runFresh (Comparison.acceptsEach c queries) s).1 =
            queries.map fun q => (Engine.isAssignable c q.1 q.2 s').1) ∧
    (∀ (limits : Limits) (u : Unknowns) (queries : List (List TypeId × List TypeId)),
      u.closure.Finite s.types →
      (∀ q ∈ queries, (∀ t ∈ q.1, s.types.Finite t) ∧ ∀ t ∈ q.2, s.types.Finite t) →
      Guard.entries limits (Unifier.unifyEach c u queries) s ≤ limits.maxIterations.toNat →
      (Guard.alone limits (Unifier.unifyEach c u queries) s).1 =
          (queries.mapM (fun q => Unifier.runFresh limits (Unifier.unify c u q.1 q.2)) s).1 ∧
        ∀ s' : Session, (Guard.alone limits (Unifier.unifyEach c u queries) s).2.types.Grows s'.types →
          (Guard.alone limits (Unifier.unifyEach c u queries) s).1 =
            queries.map fun q => (Unifier.runFresh limits (Unifier.unify c u q.1 q.2) s').1) ∧
    (∀ (d : DefId) (args : List TypeId), (∀ a ∈ args, s.types.Finite a) →
      Engine.constructEntries c d args s ≤ Limits.assignability.maxIterations.toNat →
      ((∃ t, (Engine.construct c d args s).1 = .ok t) ↔
        ∃ info, c.definitions.get? d = some info ∧ info.arity = args.length ∧
          ∀ r ∈ info.requirements d args, (r.violation? c (.ofArgs d args) s).1 = none) ∧
      ∀ e, (Engine.construct c d args s).1 = .error e →
        Engine.Refuses c d args s (Engine.construct c d args s).2.types e) := by
  refine ⟨fun queries hknown hsteps => ?_, fun limits u queries hu hknown hsteps => ?_,
    fun d args hargs hsteps => ?_⟩
  · obtain ⟨hanswers, -⟩ := (separates_acceptsEach c queries).alone_eq hsteps
    exact ⟨hanswers, fun s' hs' => hanswers.trans (Engine.mapM_isAssignable_eq hc hknown hs')⟩
  · obtain ⟨hanswers, htypes⟩ := (separates_unifyEach c limits u queries).alone_eq hsteps
    exact ⟨hanswers, fun s' hs' =>
      hanswers.trans (Unifier.mapM_unify_eq hc hu hknown (htypes ▸ hs'))⟩
  · obtain ⟨⟨t, ht⟩, htakes⟩ | ⟨e, he, hrefuses⟩ := Engine.construct_takes_or_refuses hc hargs hsteps
    · exact ⟨⟨fun _ => htakes, fun _ => ⟨t, ht⟩⟩, fun e he => nomatch ht.symm.trans he⟩
    · refine ⟨⟨fun ⟨t, ht⟩ => ?_, fun htakes => absurd htakes hrefuses.not_takes⟩, fun e' he' => ?_⟩
      · cases he.symm.trans ht
      · exact Except.error.inj (he.symm.trans he') ▸ hrefuses

namespace CycleSample

/-- Two calls, which bind `T` to `G<T>` and to `E`. -/
def calls : List (List TypeId × List TypeId) := [([⟨0⟩], [⟨6⟩]), ([⟨0⟩], [⟨7⟩])]

/-- `L<F>` accepts `E`, and `L<E>` does not.  A unifier fails in the first call, since nothing above `G<T>`
is an `L`, and serves the second as a fresh one does; that takes four steps in all, and three are too
few.  `D` refuses `E`, `F` and `E` because of the constraint of `U`. -/
theorem reuse_keeps_answers_cycle :
    (∀ s' : Session, session.types.Grows s'.types →
      [true, false] = [(⟨11⟩, ⟨7⟩), (⟨10⟩, ⟨7⟩)].map fun q =>
        (Engine.isAssignable catalog q.1 q.2 s').1) ∧
    (calls.mapM (fun q => Unifier.runFresh ⟨3, 4⟩ (Unifier.unify catalog unknowns q.1 q.2))
        session).1 =
      [.error (.unsatisfiedConstraint ⟨⟨3⟩, 0⟩ ⟨3⟩ ⟨6⟩),
        .ok ⟨[(⟨⟨3⟩, 0⟩, ⟨7⟩), (⟨⟨3⟩, 1⟩, ⟨8⟩), (⟨⟨3⟩, 2⟩, ⟨9⟩)]⟩] ∧
    (Guard.alone ⟨3, 3⟩ (Unifier.unifyEach catalog unknowns calls) session).1 ≠
      (calls.mapM (fun q => Unifier.runFresh ⟨3, 3⟩ (Unifier.unify catalog unknowns q.1 q.2))
        session).1 ∧
    Engine.Refuses catalog ⟨3⟩ [⟨7⟩, ⟨8⟩, ⟨7⟩] session
      (Engine.construct catalog ⟨3⟩ [⟨7⟩, ⟨8⟩, ⟨7⟩] session).2.types
      (.constraintViolation ⟨⟨3⟩, 1⟩ ⟨8⟩ ⟨10⟩) := by
  have hc : catalog.Grounded session.types := Catalog.WellDeclared.grounded (by decide +kernel)
  have hfinite : ∀ t : TypeId, (catalog.view session.types).check t = .ok () →
      session.types.Finite t := fun t ht => by
    obtain ⟨T, hT, -⟩ := (catalog.check_eq_ok_iff rfl).1 ht
    exact ⟨T, hT⟩
  obtain ⟨hchecker, hunifier, hconstruct⟩ := reuse_keeps_answers catalog session hc
  refine ⟨fun s' hs' => ?_, ?_, by decide +kernel, ?_⟩
  · refine Eq.trans (by decide +kernel) ((hchecker [(⟨11⟩, ⟨7⟩), (⟨10⟩, ⟨7⟩)] ?_
      (by decide +kernel)).2 s' hs')
    have hknown : ∀ q ∈ [((⟨11⟩ : TypeId), (⟨7⟩ : TypeId)), (⟨10⟩, ⟨7⟩)],
        (catalog.view session.types).check q.1 = .ok () ∧
          (catalog.view session.types).check q.2 = .ok () := by decide +kernel
    exact fun q hq => ⟨hfinite _ (hknown q hq).1, hfinite _ (hknown q hq).2⟩
  · have hclosure : unknowns.closure.Finite session.types := Substitution.finite_empty _
    have hknown : ∀ q ∈ calls, (∀ t ∈ q.1, (catalog.view session.types).check t = .ok ()) ∧
        ∀ t ∈ q.2, (catalog.view session.types).check t = .ok () := by decide +kernel
    refine (hunifier ⟨3, 4⟩ unknowns calls hclosure (fun q hq => ?_) (by decide +kernel)).1.symm.trans
      (by decide +kernel)
    exact ⟨fun t ht => hfinite t ((hknown q hq).1 t ht), fun t ht => hfinite t ((hknown q hq).2 t ht)⟩
  · have hknown : ∀ a ∈ [(⟨7⟩ : TypeId), ⟨8⟩, ⟨7⟩],
        (catalog.view session.types).check a = .ok () := by decide +kernel
    exact (hconstruct ⟨3⟩ [⟨7⟩, ⟨8⟩, ⟨7⟩] (fun a ha => hfinite a (hknown a ha))
      (by decide +kernel)).2 _ (by decide +kernel)

end CycleSample

end Generics
