import Generics.Proofs.Completeness
import Generics.Proofs.Denotation.Closing
import Generics.Proofs.Soundness

/-!
# The outcome on trees

What a candidate is closed to, as a tree, depends on the order in which inference goes through supertypes,
and on no other order.  When ambiguity is rejected, a request is resolved to the one tree that its
candidates are closed to, whatever the order of the candidates.
-/

namespace Generics

variable {c : Catalog} {base ts us : Types} {L : Hierarchy} {d : DefId} {free own : List Param}
  {A B I O T : Tree} {Fs : List Tree} {r : Request}

/-! ## Candidates -/

/-- `B` may serve `A`: it is an application of the same definition, or `A` itself where that has no
arguments. -/
def Tree.ServedBy : Tree → Tree → Prop
  | .named d, B => B = .named d
  | .app d _, B => ∃ Bs, B = .app d Bs
  | .param _, _ => False

/-- `B` lies above `O`, and it may serve `A`. -/
structure Offers (c : Catalog) (base : Types) (O A B : Tree) : Prop where
  supertype : Supertype c base O B
  serves : A.ServedBy B

/-- A candidate has one tree, and is determined by it. -/
theorem Candidate.biUnique_fits : Relator.BiUnique (Candidate.Fits c base ts O A) where
  left b b' B h h' := by
    have htype := h.unfolds.inj h'.unfolds
    have hargs : b.args = b'.args :=
      eq_of_forall₂ h.args.flip h'.args.flip fun _ _ _ _ _ => Types.Unfolds.inj
    cases b
    cases b'
    exact congr (congrArg Candidate.mk htype) hargs
  right _ _ _ h h' := h.unfolds.unique h'.unfolds

/-- No supertype is listed as a candidate twice. -/
theorem View.nodup_candidatesAmong (v : View) {above : List TypeId} (h : above.Nodup)
    (abstraction : TypeId) (requested : Node) :
    (v.candidatesAmong above abstraction requested).Nodup := by
  cases requested with
  | named => exact (h.filter _).map fun _ _ heq => congrArg Candidate.type heq
  | param => exact .nil
  | app => exact (h.filter _).map fun _ _ heq => congrArg Candidate.type heq

namespace Engine

variable {t abstraction : TypeId} {requested : Node} {above : List TypeId} {cut : Bool} {b : Candidate}

theorem exists_fits_offers (hplain : c.overrides = []) (habove : Above c base ts t O above cut)
    (hA : ts.Unfolds abstraction A) (hnode : ts.get? abstraction = some requested)
    (hb : b ∈ (c.view ts).candidatesAmong above abstraction requested) :
    ∃ B, b.Fits c base ts O A B ∧ Offers c base O A B := by
  obtain ⟨B, hB⟩ := exists_fits hplain habove hA hnode hb
  refine ⟨B, hB, hB.supertype, ?_⟩
  cases hA with
  | param hA =>
    obtain rfl := Option.some.inj (hA.symm.trans hnode)
    cases hb
  | @named _ d hA =>
    obtain rfl := Option.some.inj (hA.symm.trans hnode)
    simp only [View.candidatesAmong, List.mem_map, List.mem_filter, beq_iff_eq] at hb
    obtain ⟨u, ⟨-, rfl⟩, rfl⟩ := hb
    exact hB.unfolds.unique (.named hA)
  | @app _ d args As hA hargs =>
    obtain rfl := Option.some.inj (hA.symm.trans hnode)
    simp only [View.candidatesAmong, List.mem_map, List.mem_filter] at hb
    obtain ⟨u, ⟨-, happ⟩, rfl⟩ := hb
    have hu := hB.unfolds
    rw [View.isApplicationOf, Catalog.view_node? hplain] at happ
    cases hu with
    | named h => simp [h] at happ
    | param h => simp [h] at happ
    | @app _ e _ Bs h =>
      obtain rfl : e = d := by simpa [h] using happ
      exact ⟨Bs, rfl⟩

/-- Whatever may serve the abstraction is among the candidates. -/
theorem exists_mem_candidatesAmong (hplain : c.overrides = [])
    (habove : Above c base ts t O above false) (hA : ts.Unfolds abstraction A)
    (hnode : ts.get? abstraction = some requested) (hoffers : Offers c base O A B) :
    ∃ b ∈ (c.view ts).candidatesAmong above abstraction requested, b.Fits c base ts O A B := by
  obtain ⟨hB, hserves⟩ := hoffers
  obtain ⟨u, hu, huB⟩ := habove.complete rfl B hB
  cases hA with
  | param => cases hserves
  | named hA =>
    obtain rfl := Option.some.inj (hA.symm.trans hnode)
    cases hserves
    obtain rfl := huB.inj (.named hA)
    refine ⟨⟨u, []⟩, List.mem_map.2 ⟨u, List.mem_filter.2 ⟨hu, beq_self_eq_true u⟩, rfl⟩, ?_⟩
    exact ⟨huB, .nil, hB, rfl⟩
  | @app _ d _ _ hA =>
    obtain rfl := Option.some.inj (hA.symm.trans hnode)
    obtain ⟨Bs, rfl⟩ := hserves
    refine ⟨⟨u, (c.view ts).argsOf u⟩, List.mem_map.2 ⟨u, List.mem_filter.2 ⟨hu, ?_⟩, rfl⟩,
      huB, exists_argsOf_unfold hplain huB, hB, rfl⟩
    obtain ⟨bs, hbs, -⟩ := huB.exists_app
    rw [View.isApplicationOf, Catalog.view_node? hplain, hbs]
    exact beq_self_eq_true d

end Engine

/-! ## What a candidate is closed to -/

/-- Close the application of `d` to `Fs`, which is to serve `A`, through the candidate `B`, for which the
parameters `own` are to be bound. -/
def Catalog.closeThrough (c : Catalog) (base : Types) (L : Hierarchy) (d : DefId)
    (own free : List Param) (Fs : List Tree) (A B : Tree) : Outcomes Tree := do
  let E ← L.unify own .param B.args A.args
  c.close base L d free Fs A E

namespace Request

theorem settles_closeThrough_include {k : Closing} {requested : List TypeId} {candidate : Candidate}
    (hc : c.Grounded base) (hbase : base.Grows ts)
    (hA : ts.Unfolds r.abstraction A) (hargs : List.Forall₂ ts.Unfolds k.args Fs)
    (hpatterns : List.Forall₂ ts.Unfolds candidate.args B.args)
    (hrequested : List.Forall₂ ts.Unfolds requested A.args) :
    Engine.Settles (r.closeThrough c k own requested candidate) ts fun outcome us cut => cut = false →
      (c.closeThrough base (c.hierarchy base) k.definition own k.free Fs A B).Include us.Unfolds outcome := by
  have hincluded : Engine.Settles (r.unification c own candidate.args requested) ts
      fun answer us cut => cut = false →
        ((c.hierarchy base).unify own .param B.args A.args).Include (·.Binds us ·) answer :=
    Guard.Watches.retire _ (Unifier.watches_unify_include hc hbase (Substitution.unfolds_empty ts)
      hpatterns hrequested rfl)
  unfold closeThrough
  refine ((settles_unification hc hbase hpatterns hrequested).and hincluded).bind ?_
  rintro answer us cut hgrow ⟨⟨hsound, -⟩, hincluded⟩
  cases answer with
  | error e =>
    exact .pure fun hcut => Outcomes.bind_none (hincluded (Bool.or_eq_false_iff.1 hcut).1)
  | ok found =>
    have hargs' := Types.forall₂_unfolds_grow hargs hgrow
    cases cut with
    | true =>
      -- nothing is claimed of what follows
      have hfound := Substitution.exists_unfolds_of_extends (Substitution.unfolds_empty us)
        (hsound found rfl).2
      exact (Closing.settles_close hc (hbase.trans hgrow) (hA.grow hgrow) hargs' hfound).mono
        fun _ _ _ _ _ hcut => absurd hcut (by simp)
    | false =>
      obtain ⟨E, hE, hfound⟩ := hincluded rfl
      refine (Closing.settles_close_include hc (hbase.trans hgrow) (hA.grow hgrow) hargs' hfound).mono ?_
      intro outcome vs cut' _ hclosed hcut
      rw [Bool.false_or] at hcut
      exact (hclosed hcut).mono (fun _ ho => Outcomes.bind_some hE ho) fun _ _ => id

/-! ## What all candidates are closed to -/

/-- The types in `found` are those in `closed` and the trees among `os`. -/
structure Collects (us : Types) (os : List (Option Tree)) (closed found : List TypeId) : Prop where
  nodup : found.Nodup
  kept : closed ⊆ found
  sound : ∀ t ∈ found, t ∈ closed ∨ ∃ T, some T ∈ os ∧ us.Unfolds t T
  complete : ∀ T, some T ∈ os → ∃ t ∈ found, us.Unfolds t T

section

variable {os : List (Option Tree)} {closed closed' found : List TypeId}

/-- A candidate that is not closed adds nothing. -/
theorem Collects.none_cons (h : Collects us os closed found) : Collects us (none :: os) closed found where
  nodup := h.nodup
  kept := h.kept
  sound t ht := (h.sound t ht).imp id fun ⟨T, hT, htT⟩ => ⟨T, List.mem_cons_of_mem _ hT, htT⟩
  complete T hT := h.complete T (by simpa using hT)

/-- A candidate that is closed adds its type, unless it was there. -/
theorem Collects.some_cons {t : TypeId} (h : Collects us os closed' found)
    (hclosed : ∀ u, u ∈ closed' ↔ u ∈ closed ∨ u = t) (ht : us.Unfolds t T) :
    Collects us (some T :: os) closed found where
  nodup := h.nodup
  kept u hu := h.kept ((hclosed u).2 (.inl hu))
  sound u hu := by
    rcases h.sound u hu with hu | ⟨U, hU, huU⟩
    · refine ((hclosed u).1 hu).imp id ?_
      rintro rfl
      exact ⟨T, List.mem_cons_self .., ht⟩
    · exact .inr ⟨U, List.mem_cons_of_mem _ hU, huU⟩
  complete U hU := by
    rcases List.mem_cons.1 hU with heq | hU
    · exact ⟨t, h.kept ((hclosed t).2 (.inr rfl)), Option.some.inj heq ▸ ht⟩
    · exact h.complete U hU

theorem settles_closedThrough_collects {close : Candidate → Engine (Except Rejection TypeId)}
    {candidates : List Candidate} {x : List (Outcomes Tree)} (hreject : r.options.ambiguity = .reject)
    (hclose : List.Forall₂ (fun b y => ∀ us, ts.Grows us →
      Engine.Settles (close b) us fun outcome vs cut => cut = false →
        Outcomes.Include vs.Unfolds y outcome) candidates x)
    (hnodup : closed.Nodup) (hgrow : ts.Grows us) :
    Engine.Settles (r.closedThrough c close candidates closed) us fun found vs cut =>
      cut = false → ∃ os, List.Forall₂ (fun y o => y o) x os ∧ Collects vs os closed found := by
  induction hclose generalizing us closed with
  | nil => exact .pure fun _ => ⟨[], .nil, hnodup, List.Subset.refl _, fun t ht => .inl ht, by simp⟩
  | cons hb _ ih =>
    rw [closedThrough]
    refine (hb us hgrow).bind ?_
    rintro (e | t) vs cut hvs hincluded
    · refine .report_bind c _ ((ih hnodup (hgrow.trans hvs)).mono ?_)
      intro found ws cut' _ hcollects hcut
      rw [Bool.or_eq_false_iff] at hcut
      obtain ⟨os, hos, hcollects⟩ := hcollects hcut.2
      exact ⟨none :: os, .cons (hincluded hcut.1) hos, hcollects.none_cons⟩
    · refine .report_bind c _ ?_
      dsimp only
      rw [if_neg (by simp [hreject])]
      obtain ⟨hmem, hnodup', -, -⟩ := appendNew_spec t hnodup
      refine (ih hnodup' (hgrow.trans hvs)).mono ?_
      intro found ws cut' hws hcollects hcut
      rw [Bool.or_eq_false_iff] at hcut
      obtain ⟨os, hos, hcollects⟩ := hcollects hcut.2
      obtain ⟨T, hT, ht⟩ := hincluded hcut.1
      exact ⟨some T :: os, .cons hT hos, hcollects.some_cons hmem (ht.grow hws)⟩

end

end Request

/-! ## Outcomes -/

/-- What a resolution is on trees: the closed type, if there is one. -/
inductive Resolution.Shows (us : Types) : Resolution → Option Tree → Prop
  | invalid : Shows us .invalid none
  | valid {t : TypeId} {T : Tree} (ht : us.Unfolds t T) : Shows us (.valid t) (some T)

/-- A resolution has one of the outcomes. -/
def Resolution.Among (us : Types) (x : Outcomes Tree) (o : Resolution) : Prop := ∃ y, x y ∧ o.Shows us y

theorem Resolution.Among.mono {x y : Outcomes Tree} {o : Resolution} (h : o.Among us x)
    (hxy : ∀ o, x o → y o) : o.Among us y :=
  h.imp fun o => And.imp_left (hxy o)

theorem Resolution.ofClosed_among {C : Tree → Prop} {found : List TypeId} (hnodup : found.Nodup)
    (hunfolds : ∀ t ∈ found, ∃ T, us.Unfolds t T)
    (h : ∀ T, C T ↔ ∃ t ∈ found, us.Unfolds t T) : (ofClosed found).Among us (.theOne C) := by
  match found with
  | [] =>
    refine ⟨none, fun T => ⟨nofun, fun hT => ?_⟩, .invalid⟩
    obtain ⟨t, ht, -⟩ := (h T).1 ((hT T).2 rfl)
    cases ht
  | [t] =>
    obtain ⟨T, ht⟩ := hunfolds t (List.mem_singleton_self t)
    have hC : ∀ U, C U ↔ U = T := fun U => by
      rw [h]
      simp only [List.mem_singleton, exists_eq_left]
      exact ⟨fun hU => hU.unique ht, fun heq => heq ▸ ht⟩
    refine ⟨some T, fun U => ⟨?_, fun hU => congrArg some ((hU T).1 ((hC T).2 rfl))⟩, .valid ht⟩
    rintro ⟨⟩
    exact hC
  | t :: u :: rest =>
    refine ⟨none, fun T => ⟨nofun, fun hT => ?_⟩, .invalid⟩
    have htree : ∀ v ∈ t :: u :: rest, us.Unfolds v T := by
      intro v hv
      obtain ⟨V, hV⟩ := hunfolds v hv
      exact (hT V).1 ((h V).2 ⟨v, hv, hV⟩) ▸ hV
    have heq := (htree t (List.mem_cons_self ..)).inj
      (htree u (List.mem_cons_of_mem _ (List.mem_cons_self ..)))
    rw [List.nodup_cons] at hnodup
    exact absurd (heq ▸ List.mem_cons_self ..) hnodup.1

/-- The parameters of `d` that the tree mentions, in order of first occurrence. -/
def Tree.paramsOf (d : DefId) (T : Tree) : List Param :=
  (View.Mentions.appendNew [] T.params).filter (·.owner == d)

theorem Catalog.paramsOf_eq {t : TypeId} (hplain : c.overrides = []) (ht : ts.Unfolds t T) :
    (c.view ts).paramsOf d t = T.paramsOf d := by
  rw [View.paramsOf, params_eq hplain ht]
  rfl

/-- The one tree that the application of `d` to `Fs` is closed to through all that `O` offers to `A`. -/
def Catalog.closeOpen (c : Catalog) (base : Types) (L : Hierarchy) (d : DefId) (free : List Param)
    (Fs : List Tree) (O A : Tree) : Outcomes Tree := fun o =>
  ∃ closed : Tree → Option Tree,
    (∀ B, Offers c base O A B → c.closeThrough base L d (O.paramsOf d) free Fs A B (closed B)) ∧
    Outcomes.theOne (fun T => ∃ B, Offers c base O A B ∧ closed B = some T) o

/-- What a request for `A` is resolved to: an implementation without parameters to itself if `A` accepts
it, and any other to what it is closed to, where inference reads `L`. -/
def Catalog.resolutions (c : Catalog) (base : Types) (L : Hierarchy) (A I : Tree) : Outcomes Tree := fun o =>
  I.params = [] ∧ Outcomes.given (Accepts c base A I) I o ∨
    I.params ≠ [] ∧ ∃ d info, I.definition? = some d ∧ c.definitions.get? d = some info ∧
      c.closeOpen base L d (View.Mentions.appendNew [] I.params) I.args (.opened d info.arity) A o

/-- What is found for all that is offered is what the request is resolved to. -/
theorem Request.Collects.among {Bs : List Tree} {os : List (Option Tree)} {found : List TypeId}
    (h : Request.Collects us os [] found) (hnodup : Bs.Nodup)
    (hos : List.Forall₂ (c.closeThrough base L d (O.paramsOf d) free Fs A) Bs os)
    (hBs : ∀ B, B ∈ Bs ↔ Offers c base O A B) :
    (Resolution.ofClosed found).Among us (c.closeOpen base L d free Fs O A) := by
  obtain ⟨closed, rfl, hclosed⟩ := exists_eq_map_of_forall₂ hnodup hos
  have hfound := fun t ht => (h.sound t ht).resolve_left List.not_mem_nil
  have htrees : ∀ T, (∃ B, Offers c base O A B ∧ closed B = some T) ↔ ∃ t ∈ found, us.Unfolds t T := by
    intro T
    constructor
    · rintro ⟨B, hB, hT⟩
      exact h.complete T (List.mem_map.2 ⟨B, (hBs B).2 hB, hT⟩)
    · rintro ⟨t, ht, hT⟩
      obtain ⟨T', hmem, hT'⟩ := hfound t ht
      obtain rfl := hT.unique hT'
      obtain ⟨B, hB, heq⟩ := List.mem_map.1 hmem
      exact ⟨B, (hBs B).1 hB, heq⟩
  have hunfolds : ∀ t ∈ found, ∃ T, us.Unfolds t T := fun t ht => (hfound t ht).imp fun _ => And.right
  exact (Resolution.ofClosed_among h.nodup hunfolds htrees).mono fun o ho =>
    ⟨closed, fun B hB => hclosed B ((hBs B).2 hB), ho⟩

namespace Request

variable {i : Implementation} {opened : TypeId}

theorem settles_resolveClosed_among (hc : c.Grounded base) (hbase : base.Grows ts)
    (hA : ts.Unfolds r.abstraction A) (hI : ts.Unfolds r.implementation I) :
    Engine.Settles (r.resolveClosed c) ts fun outcome us cut => cut = false →
      outcome.Among us (.given (Accepts c base A I) I) := by
  unfold resolveClosed
  refine (Engine.settles_isAssignable hc hbase hA hI).bind ?_
  rintro valid us cut hgrow ⟨hsound, hcomplete⟩
  refine .report_bind c _ (.pure fun hcut => ?_)
  cases valid with
  | true => exact ⟨some I, ⟨hsound rfl, rfl⟩, .valid (hI.grow hgrow)⟩
  | false =>
    refine ⟨none, fun haccepts => ?_, .invalid⟩
    cases hcomplete (Bool.or_eq_false_iff.1 hcut).1 haccepts

/-- When ambiguity is rejected, an open implementation is closed to the one tree that what it offers is
closed to. -/
theorem settles_resolveOpen_among (hc : c.Grounded base) (hbase : base.Grows ts)
    (hreject : r.options.ambiguity = .reject) (hA : ts.Unfolds r.abstraction A)
    (hargs : List.Forall₂ ts.Unfolds i.args Fs) (hopened : ts.Unfolds opened O) :
    Engine.Settles (r.resolveOpen c i opened) ts fun outcome us cut => cut = false →
      outcome.Among us (c.closeOpen base (c.hierarchy base) i.definition i.free Fs O A) := by
  unfold resolveOpen
  refine .query_bind c (fun vs hvs => c.paramsOf_grow hc.plain hopened hvs i.definition) ?_
  rw [c.paramsOf_eq hc.plain hopened]
  refine (Engine.settles_candidates hc hbase hopened hA).bind ?_
  rintro candidates us cut hgrow ⟨above, requested, -, hnode, habove, rfl⟩
  have hA' := hA.grow hgrow
  obtain ⟨Bs, hBs⟩ := forall₂_of_forall_exists fun b hb =>
    Engine.exists_fits_offers hc.plain habove hA' hnode hb
  have hnodup := (List.rel_nodup Candidate.biUnique_fits (hBs.imp fun _ _ => And.left)).1
    ((c.view us).nodup_candidatesAmong above.nodup_toList r.abstraction requested)
  -- what is offered is a candidate, unless the enumeration was cut short
  have hoffers : cut = false → ∀ B, B ∈ Bs ↔ Offers c base O A B := by
    rintro rfl B
    constructor
    · intro hB
      obtain ⟨b, -, -, hoffers⟩ := exists_of_mem_right hBs hB
      exact hoffers
    · intro hB
      obtain ⟨b, hb, hfits⟩ := Engine.exists_mem_candidatesAmong hc.plain habove hA' hnode hB
      obtain ⟨B', hB', hfits', -⟩ := exists_of_mem_left hBs hb
      exact hfits.unfolds.unique hfits'.unfolds ▸ hB'
  split
  · rename_i hempty
    refine .report_bind c _ (.pure fun hcut => ?_)
    obtain rfl : Bs = [] := List.forall₂_nil_left_iff.1 (List.isEmpty_iff.1 hempty ▸ hBs)
    have hcollects : Collects us [] [] [] := ⟨.nil, List.Subset.refl _, nofun, nofun⟩
    exact hcollects.among hnodup .nil (hoffers (Bool.or_eq_false_iff.1 hcut).1)
  refine .query_bind c (fun vs hvs => c.argsOf_grow hc.plain hA' hvs) ?_
  refine (settles_closedThrough_collects
    (x := Bs.map (c.closeThrough base (c.hierarchy base) i.definition (O.paramsOf i.definition) i.free Fs A)) hreject ?_
    .nil (.refl us)).bind ?_
  · rw [List.forall₂_map_right_iff]
    refine hBs.imp fun b B hB vs hvs => ?_
    exact settles_closeThrough_include (k := r.closing i) hc (hbase.trans (hgrow.trans hvs))
      (hA'.grow hvs) (Types.forall₂_unfolds_grow hargs (hgrow.trans hvs))
      (Types.forall₂_unfolds_grow hB.1.args hvs)
      (Types.forall₂_unfolds_grow (Engine.exists_argsOf_unfold hc.plain hA') hvs)
  · intro found vs cut' hvs hcollects
    have hamong : ∀ cut'', (cut || (cut' || cut'')) = false →
        (Resolution.ofClosed found).Among vs (c.closeOpen base (c.hierarchy base) i.definition i.free Fs O A) := by
      intro cut'' hcut
      simp only [Bool.or_eq_false_iff] at hcut
      obtain ⟨os, hos, hcollects⟩ := hcollects hcut.2.1
      rw [List.forall₂_map_left_iff] at hos
      exact hcollects.among hnodup hos (hoffers hcut.1)
    split
    · exact .report_bind c _ (.pure fun hcut => hamong _ hcut)
    · exact .pure fun hcut => hamong _ hcut

/-- When ambiguity is rejected, a request that passes the examination is resolved as it is on trees. -/
theorem settles_resolve_among (hc : c.Grounded ts)
    (hreject : r.options.ambiguity = .reject)
    (hi : (c.view ts).examine r.abstraction r.implementation = .ok i)
    (hA : ts.Unfolds r.abstraction A) (hI : ts.Unfolds r.implementation I) :
    Engine.Settles (r.resolve c) ts fun answer us cut => cut = false →
      ∃ outcome, answer = .ok outcome ∧ outcome.Among us (c.resolutions ts (c.hierarchy ts) A I) := by
  obtain ⟨-, ⟨I', hI', hwf, hd⟩, hargs, hfree, -⟩ := (c.examine_eq_ok_iff hc.plain).1 hi
  obtain rfl := hI'.unique hI
  rw [c.params_eq hc.plain hI] at hfree
  have hnil : i.free = [] ↔ I'.params = [] := by
    simp only [hfree, List.eq_nil_iff_forall_not_mem, View.Mentions.mem_appendNew, List.not_mem_nil,
      false_or]
  by_cases hclosed : i.free = []
  · refine settles_resolve_of_free_eq_nil hc.plain hi hclosed
      ((settles_resolveClosed_among hc (.refl ts) hA hI).map fun outcome us cut _ hamong hcut =>
        ⟨outcome, rfl, (hamong hcut).mono fun o ho => .inl ⟨hnil.1 hclosed, ho⟩⟩)
  · refine settles_resolve_of_free_ne_nil hc.plain hi hclosed
      ((Engine.settles_definitionType c i.definition ts).bind ?_)
    rintro o us _ hgrow ⟨rfl, hopened⟩
    obtain ⟨info, hinfo⟩ := hwf.exists_definition hd
    rw [hinfo] at hopened
    obtain ⟨opened, rfl, hopened⟩ := hopened
    have hFs : List.Forall₂ ts.Unfolds i.args I'.args := by
      rw [hargs]
      exact Engine.exists_argsOf_unfold hc.plain hI
    refine (settles_resolveOpen_among hc hgrow hreject (hA.grow hgrow)
      (Types.forall₂_unfolds_grow hFs hgrow) hopened).map
        fun outcome vs cut _ hamong hcut => ⟨outcome, rfl, (hamong ?_).mono fun o ho => ?_⟩
    · rwa [Bool.false_or] at hcut
    · exact .inr ⟨hnil.not.1 hclosed, i.definition, info, hd, hinfo, hfree ▸ ho⟩

end Request

end Generics
