import Generics.Construct
import Generics.Proofs.Construction
import Generics.Proofs.Mirroring

/-!
# Twins are treated alike

Instantiation, enumeration, comparison and construction mirror each other on twins: the same steps are
taken in both stores, so the same guards refuse the same steps, and what comes out are twins again.
-/

namespace Generics

variable {c c' : Catalog} {K : DefId → Prop} {base ts us : Types} {t u : TypeId}

theorem Engine.mirrors_instantiate (hc : c.Coincide c' K base) {σ τ : Substitution}
    (ht : Twin K ts us t u) (hσ : σ.Twin K ts us τ) :
    Mirrors (instantiate c t σ) (instantiate c' u τ) ts us fun a b ts' us' => Twin K ts' us' a b := by
  obtain ⟨T, hT, ht, hu⟩ := ht
  obtain ⟨f, hσ, hτ, hf⟩ := hσ.exists_unfolds
  refine .of_settles (settles_instantiate hc.plain ht hσ) (settles_instantiate hc.plain' hu hτ) ?_
  rintro a b ts' us' _ _ - - ⟨ha, rfl, -⟩ ⟨hb, rfl, -⟩
  exact ⟨rfl, T.subst f, hT.subst fun p hp => hf p (hT.of_mem_params hp), ha, hb⟩

/-! ## Supertypes -/

namespace InternTable

variable {found found' : InternTable TypeId}

theorem contains_eq_of_twin (h : List.Forall₂ (Twin K ts us) found.toList found'.toList)
    (ht : Twin K ts us t u) : found'.contains u = found.contains t := by
  rw [Bool.eq_iff_iff, contains_iff_mem_toList, contains_iff_mem_toList]
  exact (List.rel_mem (twin_biUnique K ts us) ht h).symm

theorem forall₂_insert_of_twin (h : List.Forall₂ (Twin K ts us) found.toList found'.toList)
    (ht : Twin K ts us t u) :
    List.Forall₂ (Twin K ts us) (found.insert t).toList (found'.insert u).toList := by
  rw [toList_insert, toList_insert, contains_eq_of_twin h ht]
  split
  · exact h
  · exact List.rel_append h (.cons ht .nil)

end InternTable

/-- Both walks have found twins in the same order. -/
structure Climb.Twin (K : DefId → Prop) (ts us : Types) (w w' : Climb) : Prop where
  found : List.Forall₂ (Generics.Twin K ts us) w.found.toList w'.found.toList
  guard : w.guard.Twin (Generics.Twin K ts us) w'.guard

theorem Climb.Twin.grow {w w' : Climb} {ts' us' : Types} (h : w.Twin K ts us w')
    (hts : ts.Grows ts') (hus : us.Grows us') : w.Twin K ts' us' w' :=
  ⟨forall₂_twin_grow h.found hts hus, h.guard.mono fun _ _ hk => hk.grow hts hus⟩

namespace Engine

theorem mirrors_climb (hc : c.Coincide c' K base) (hts : base.Grows ts) (hus : base.Grows us)
    {n : Nat} {w w' : Climb} (ht : Twin K ts us t u) (hw : w.Twin K ts us w') :
    Mirrors (climb c n w t) (climb c' n w' u) ts us fun w w' ts' us' => w.Twin K ts' us' w' := by
  induction n generalizing ts us t u w w' with
  | zero => exact .pure hw
  | succ n ih =>
    rw [climb, climb, InternTable.contains_eq_of_twin hw.found ht]
    split
    · exact .pure hw
    obtain ⟨e, g, g', henter, henter', hg⟩ := hw.guard.enter (twin_biUnique K ts us) ht
    simp only [henter, henter']
    have hentered : Climb.Twin K ts us ⟨w.found.insert t, g⟩ ⟨w'.found.insert u, g'⟩ :=
      ⟨InternTable.forall₂_insert_of_twin hw.found ht, hg⟩
    cases e with
    | cycle => exact .pure hentered
    | tooDeep => exact .pure hentered
    | tooLong => exact .pure hentered
    | entered =>
      obtain ⟨hσ, hdeclared, hbase⟩ := hc.declaredSupertypes ht
      refine .query_bind c c' ?_
      generalize (c.view ts).declaredSupertypes t = d at hσ hdeclared hbase
      generalize (c'.view us).declaredSupertypes u = d' at hσ hdeclared
      obtain ⟨σ, declared⟩ := d
      obtain ⟨τ, _⟩ := d'
      obtain rfl : _ = declared := hdeclared
      refine Mirrors.bind (Mirrors.foldlM (S := fun k k' => k = k' ∧ Twin K base base k k)
        (Q := fun w w' ts us => Climb.Twin K ts us w w') (List.forall₂_same.2 fun k hk => ⟨rfl, hbase k hk⟩) hentered ?_) ?_
      · rintro k _ w w' ts' us' ⟨rfl, hk⟩ hts' hus' hw
        refine (mirrors_instantiate hc (hk.grow (hts.trans hts') (hus.trans hus'))
          (hσ.grow hts' hus')).bind ?_
        intro a b ts'' us'' hts'' hus'' hab
        exact ih (hts.trans (hts'.trans hts'')) (hus.trans (hus'.trans hus'')) hab
          (hw.grow hts'' hus'')
      · intro w w' ts' us' hts' hus' hw
        refine (Mirrors.leave (P := fun g g' ts us => Climb.Twin K ts us ⟨w.found, g⟩ ⟨w'.found, g'⟩)
          (twin_biUnique K ts' us') hw.guard (ht.grow hts' hus') fun _ _ hl => ⟨hw.found, hl⟩).bind ?_
        intro g g' ts'' us'' _ _ hl
        exact .pure hl

/-- What lies above twins are twins, found in the same order. -/
theorem mirrors_supertypes (hc : c.Coincide c' K base) (hts : base.Grows ts) (hus : base.Grows us)
    (ht : Twin K ts us t u) :
    Mirrors (supertypes c t) (supertypes c' u) ts us fun found found' ts' us' =>
      List.Forall₂ (Twin K ts' us') found.toList found'.toList := by
  refine (mirrors_climb hc hts hus ht ⟨.nil, Guard.twin_start _ _⟩).bind ?_
  intro w w' ts' us' _ _ hw
  have hend : Mirrors (retire w.guard >>= fun _ => Pure.pure w.found)
      (retire w'.guard >>= fun _ => Pure.pure w'.found) ts' us' fun found found' ts' us' =>
        List.Forall₂ (Twin K ts' us') found.toList found'.toList :=
    .retire_bind hw.guard.exceeded (.pure hw.found)
  rw [hw.guard.exceeded]
  split
  · exact .report_bind c c' _ _ hend
  · exact hend

/-- The candidates for twins have twins as arguments. -/
theorem mirrors_candidates (hc : c.Coincide c' K base) (hts : base.Grows ts) (hus : base.Grows us)
    {abstraction abstraction' : TypeId} (ht : Twin K ts us t u)
    (hA : Twin K ts us abstraction abstraction') :
    Mirrors (candidates c t abstraction) (candidates c' u abstraction') ts us fun found found' ts' us' =>
      List.Forall₂ (fun x x' => List.Forall₂ (Twin K ts' us') x.args x'.args) found found' := by
  obtain ⟨n, n', hn, hn', hnode⟩ := hc.exists_nodes hA
  unfold candidates
  refine .query_bind c c' ?_
  simp only [hn, hn']
  refine (mirrors_supertypes hc hts hus ht).bind fun above above' ts' us' hts' hus' habove => ?_
  refine .query_bind c c' (.report_bind c c' _ _ (.pure ?_))
  cases hnode with
  | param => exact .nil
  | named =>
    refine List.rel_map (R := Twin K ts' us') (P := fun x x' : Candidate =>
      List.Forall₂ (Twin K ts' us') x.args x'.args) (fun _ _ _ => .nil) (List.rel_filter ?_ habove)
    intro a b hab
    simp only [beq_iff_eq]
    exact Relator.rel_eq (twin_biUnique K ts' us') hab (hA.grow hts' hus')
  | @app d =>
    refine List.rel_map (R := Twin K ts' us') (P := fun x x' : Candidate =>
      List.Forall₂ (Twin K ts' us') x.args x'.args) (fun a b hab => hc.forall₂_argsOf hab)
      (List.rel_filter ?_ habove)
    intro a b hab
    exact Bool.eq_iff_iff.1 (hc.isApplicationOf_eq hab d).symm

end Engine

/-! ## Assignability -/

namespace Comparison

variable {target target' source source' : TypeId} {g g' : Guard (TypeId × TypeId)}

/-- Comparisons of pairs of twins. -/
abbrev Mirrors (K : DefId → Prop) (g g' : Guard (TypeId × TypeId)) (m m' : Comparison Bool)
    (ts us : Types) : Prop :=
  Guard.Mirrors (.pair (.twin K)) g g' m m' ts us fun b b' _ _ => b = b'

/-- `accepts` and `accepts'` compare twins alike, under any guards that correspond. -/
def Agree (K : DefId → Prop) (base : Types) (accepts accepts' : TypeId → TypeId → Comparison Bool) :
    Prop :=
  ∀ ts us target target' source source' g g', base.Grows ts → base.Grows us →
    Twin K ts us target target' → Twin K ts us source source' →
    Guard.Twin ((Likeness.twin K).pair.rel ts us) g g' →
    Mirrors K g g' (accepts target source) (accepts' target' source') ts us

variable {accepts accepts' : TypeId → TypeId → Comparison Bool}

theorem mirrors_compatible (hc : c.Coincide c' K base) (hts : base.Grows ts) (hus : base.Grows us)
    (haccepts : Agree K base accepts accepts') (variance : Variance)
    (hg : g.Twin ((Likeness.twin K).pair.rel ts us) g') (ht : Twin K ts us target target')
    (hs : Twin K ts us source source') :
    Mirrors K g g' (compatible c accepts variance target source)
      (compatible c' accepts' variance target' source') ts us := by
  have heq : target = source ↔ target' = source' := Relator.rel_eq (twin_biUnique K ts us) ht hs
  unfold compatible
  simp only [heq]
  split
  · exact .pure hg rfl
  · cases variance with
    | invariant => exact .pure hg rfl
    | covariant =>
      refine .query_bind c c' ?_
      rw [hc.isReferenceType_eq hts hus hs]
      split
      · exact haccepts ts us _ _ _ _ g g' hts hus ht hs hg
      · exact .pure hg rfl
    | contravariant =>
      refine .query_bind c c' ?_
      rw [hc.isReferenceType_eq hts hus ht]
      split
      · exact haccepts ts us _ _ _ _ g g' hts hus hs ht hg
      · exact .pure hg rfl

theorem mirrors_acceptsAbove (hc : c.Coincide c' K base) (hts : base.Grows ts) (hus : base.Grows us)
    (haccepts : Agree K base accepts accepts') (hg : g.Twin ((Likeness.twin K).pair.rel ts us) g')
    (ht : Twin K ts us target target') (hs : Twin K ts us source source') :
    Mirrors K g g' (acceptsAbove c accepts target source)
      (acceptsAbove c' accepts' target' source') ts us := by
  unfold acceptsAbove
  refine .lift_bind hg (Engine.mirrors_supertypes hc hts hus hs) ?_
  intro above above' ts' us' hts' hus' hg habove
  have ht := ht.grow hts' hus'
  rw [InternTable.contains_eq_of_twin habove ht]
  split
  · exact .pure hg rfl
  refine .query_bind c c' ?_
  have hinterface := hc.variantInterface? ht
  revert hinterface
  generalize (c.view ts').variantInterface? target = i
  generalize (c'.view us').variantInterface? target' = i'
  rintro (⟨hi⟩ | _)
  · rename_i i i'
    obtain ⟨d, variances, targets⟩ := i
    obtain ⟨d', variances', targets'⟩ := i'
    obtain ⟨rfl, rfl, htargets⟩ := hi
    refine .anyM habove hg fun s s' ts'' us'' h h' hs hts'' hus'' hh => ?_
    have hs := hs.grow hts'' hus''
    refine .query_bind c c' ?_
    rw [← htargets.length_eq]
    have hsources := hc.argsAs? d targets.length hs
    revert hsources
    generalize (c.view ts'').argsAs? d targets.length s = sources
    generalize (c'.view us'').argsAs? d targets.length s' = sources'
    rintro (⟨hsources⟩ | _)
    · have hpairs := forall₂_zip (forall₂_twin_grow htargets hts'' hus'') hsources
      refine .allM (forall₂_zip (List.forall₂_same.2 fun _ _ => rfl) hpairs) hh ?_
      rintro ⟨variance, x, y⟩ ⟨_, x', y'⟩ ts₃ us₃ g₃ g₃' ⟨rfl, hx, hy⟩ hts₃ hus₃ hg₃
      exact mirrors_compatible hc (hts.trans (hts'.trans (hts''.trans hts₃)))
        (hus.trans (hus'.trans (hus''.trans hus₃))) haccepts variance hg₃ (hx.grow hts₃ hus₃)
        (hy.grow hts₃ hus₃)
    · exact .pure hh rfl
  · exact .pure hg rfl

/-- The same questions are asked about twins, and answered alike. -/
theorem mirrors_acceptsTo (hc : c.Coincide c' K base) (n : Nat) :
    Agree K base (acceptsTo c n) (acceptsTo c' n) := by
  induction n with
  | zero =>
    intro ts us _ _ _ _ g g' _ _ _ _ hg
    exact .pure hg rfl
  | succ n ih =>
    intro ts us target target' source source' g g' hts hus ht hs hg
    have heq : target = source ↔ target' = source' := Relator.rel_eq (twin_biUnique K ts us) ht hs
    rw [acceptsTo, acceptsTo]
    simp only [heq]
    split
    · exact .pure hg rfl
    refine .enter_bind hg ⟨ht, hs⟩ fun e h h' hh => ?_
    cases e with
    | entered => exact .bind_leave ⟨ht, hs⟩ (mirrors_acceptsAbove hc hts hus ih hh ht hs)
    | cycle => exact .pure hh rfl
    | tooDeep => exact .pure hh rfl
    | tooLong => exact .pure hh rfl

end Comparison

/-- Twins are assignable alike. -/
theorem Engine.mirrors_isAssignable (hc : c.Coincide c' K base) (hts : base.Grows ts)
    (hus : base.Grows us) {target target' source source' : TypeId}
    (ht : Twin K ts us target target') (hs : Twin K ts us source source') :
    Mirrors (isAssignable c target source) (isAssignable c' target' source') ts us
      fun b b' _ _ => b = b' :=
  Guard.Mirrors.retire _ (Comparison.mirrors_acceptsTo hc _ ts us _ _ _ _ _ _ hts hus ht hs
    (Guard.twin_start _ _))

/-- Whether a type is assignable does not change as a store grows. -/
theorem Engine.isAssignable_grow {s s' : Session} {target source : TypeId} {T S : Tree}
    (hc : c.Grounded s.types) (ht : s.types.Unfolds target T) (hs : s.types.Unfolds source S)
    (hgrow : s.types.Grows s'.types) :
    (isAssignable c target source s').1 = (isAssignable c target source s).1 := by
  obtain ⟨b, us, _, us', cut, hrun, hrun', -, -, rfl⟩ := mirrors_isAssignable hc.coincide (.refl _)
    hgrow ⟨T, T.over_true, ht, ht.grow hgrow⟩ ⟨S, S.over_true, hs, hs.grow hgrow⟩
  rw [(hrun s rfl).1, (hrun' s' rfl).1]

/-! ## Construction -/

/-- One demand is made of arguments that correspond. -/
inductive Requirement.Twin (K : DefId → Prop) (base : Types) (R : TypeId → TypeId → Prop) :
    Requirement → Requirement → Prop
  | special {t u : TypeId} (p : Param) (demanded : Special) (h : R t u) :
      Requirement.Twin K base R (.special p t demanded) (.special p u demanded)
  | constraint {t u k : TypeId} (p : Param) (hk : Generics.Twin K base base k k) (h : R t u) :
      Requirement.Twin K base R (.constraint p t k) (.constraint p u k)

theorem Catalog.Coincide.forall₂_requirements (hc : c.Coincide c' K base) {d : DefId}
    {info : Definition} (hd : K d) (hinfo : c.definitions.get? d = some info)
    {R : TypeId → TypeId → Prop} {args args' : List TypeId} (hargs : List.Forall₂ R args args') :
    List.Forall₂ (Requirement.Twin K base R) (info.requirements d args)
      (info.requirements d args') := by
  -- the arguments correspond position by position, beside one declaration
  have hslots : List.Forall₂ (fun e e' : (ParamDecl × TypeId) × Nat => e.1.1 = e'.1.1 ∧ e.2 = e'.2 ∧
      R e.1.2 e'.1.2 ∧ info.params[e.2]? = some e.1.1) (info.params.zip args).zipIdx
      (info.params.zip args').zipIdx := by
    refine forall₂_of_getElem? (by simp [hargs.length_eq]) ?_
    rintro i ⟨⟨decl, a⟩, j⟩ ⟨⟨decl', a'⟩, j'⟩ he he'
    simp only [List.getElem?_zipIdx, Option.map_eq_some_iff, List.getElem?_zip_eq_some, Prod.mk.injEq,
      Nat.zero_add] at he he'
    obtain ⟨_, ⟨hdecl, ha⟩, rfl, rfl⟩ := he
    obtain ⟨_, ⟨hdecl', ha'⟩, rfl, rfl⟩ := he'
    obtain ⟨b, hb, hab⟩ := exists_getElem?_of_forall₂ hargs ha
    obtain rfl := Option.some.inj (hb.symm.trans ha')
    exact ⟨Option.some.inj (hdecl.symm.trans hdecl'), rfl, hab, hdecl⟩
  unfold Definition.requirements
  refine List.rel_flatMap hslots ?_
  rintro ⟨⟨decl, a⟩, i⟩ ⟨⟨_, a'⟩, _⟩ ⟨rfl, rfl, ha, hdecl⟩
  refine .cons (.special _ _ ha) ?_
  rw [List.forall₂_map_left_iff, List.forall₂_map_right_iff, List.forall₂_same]
  intro k hk
  refine .constraint _ (hc.constraints ⟨d, i⟩ decl hd ?_ k hk) ha
  rw [Definitions.param?, hinfo]
  exact hdecl

theorem Comparison.mirrors_violation? (hc : c.Coincide c' K base) (hts : base.Grows ts)
    (hus : base.Grows us) {σ τ : Substitution} (hσ : σ.Twin K ts us τ) {r r' : Requirement}
    (hr : r.Twin K base (Twin K ts us) r') {g g' : Guard (TypeId × TypeId)}
    (hg : g.Twin ((Likeness.twin K).pair.rel ts us) g') :
    Guard.Mirrors (.pair (.twin K)) g g' (violation? c σ r) (violation? c' τ r') ts us
      fun v v' _ _ => v.isSome = v'.isSome := by
  cases hr with
  | special p demanded h =>
    refine .query_bind c c' (.pure hg ?_)
    rw [hc.missing_eq hts hus h]
    split <;> rfl
  | constraint p hk h =>
    refine .lift_bind hg (Engine.mirrors_instantiate hc (hk.grow hts hus) hσ) ?_
    intro k k' ts' us' hts' hus' hg' hk'
    refine (mirrors_acceptsTo hc _ ts' us' _ _ _ _ g g' (hts.trans hts') (hus.trans hus') hk'
      (h.grow hts' hus') hg').bind ?_
    rintro b _ ts'' us'' h h' - - hh rfl
    refine .pure hh ?_
    cases b <;> rfl

namespace Engine

theorem mirrors_intern_app {d : DefId} (hd : K d) {args args' : List TypeId}
    (hargs : List.Forall₂ (Twin K ts us) args args') :
    Mirrors (intern (.app d args)) (intern (.app d args')) ts us fun t u ts' us' =>
      Twin K ts' us' t u := by
  obtain ⟨Ts, hTs, has, hbs⟩ := exists_trees hargs
  refine .of_settles
    (Settles.intern (P := fun t us cut => us.Unfolds t (.apply d Ts) ∧ cut = false)
      ⟨Types.unfolds_intern_app d has, rfl⟩)
    (Settles.intern (P := fun t us cut => us.Unfolds t (.apply d Ts) ∧ cut = false)
      ⟨Types.unfolds_intern_app d hbs, rfl⟩) ?_
  rintro t u ts' us' _ _ - - ⟨ht, rfl⟩ ⟨hu, rfl⟩
  exact ⟨rfl, .apply d Ts, Tree.Over.apply hd hTs, ht, hu⟩

/-- Twins are taken and refused alike. -/
theorem mirrors_construct (hc : c.Coincide c' K base) (hts : base.Grows ts) (hus : base.Grows us)
    {d : DefId} (hd : K d) {args args' : List TypeId}
    (hargs : List.Forall₂ (Twin K ts us) args args') :
    Mirrors (construct c d args) (construct c' d args') ts us fun r r' ts' us' =>
      ExceptRel (Twin K ts' us') r r' := by
  unfold construct
  rw [hc.definitions d hd]
  cases hinfo : c.definitions.get? d with
  | none => exact .pure (.error _ _)
  | some info =>
    dsimp only
    rw [hargs.length_eq]
    split
    · exact .pure (.error _ _)
    have hviolations : Mirrors
        (Comparison.runFresh ((info.requirements d args).findSomeM?
          (Comparison.violation? c (.ofArgs d args))))
        (Comparison.runFresh ((info.requirements d args').findSomeM?
          (Comparison.violation? c' (.ofArgs d args')))) ts us
        fun v v' _ _ => v.isSome = v'.isSome := by
      refine Guard.Mirrors.retire (r := (Likeness.twin K).pair) _ (.findSomeM? (hc.forall₂_requirements hd hinfo hargs)
        (Guard.twin_start _ _) ?_)
      intro r r' ts' us' g g' hr hts' hus' hg
      refine Comparison.mirrors_violation? hc (hts.trans hts') (hus.trans hus')
        (Substitution.twin_ofArgs hd (forall₂_twin_grow hargs hts' hus')) ?_ hg
      cases hr with
      | special p demanded h => exact .special p demanded (h.grow hts' hus')
      | constraint p hk h => exact .constraint p hk (h.grow hts' hus')
    refine hviolations.bind fun v v' ts' us' hts' hus' hv => ?_
    cases v with
    | some =>
      obtain ⟨v', rfl⟩ := Option.isSome_iff_exists.1 hv.symm
      exact .pure (.error _ _)
    | none =>
      obtain rfl := Option.isNone_iff_eq_none.1 (by simpa using hv.symm)
      refine (mirrors_intern_app hd (forall₂_twin_grow hargs hts' hus')).bind ?_
      intro t u ts'' us'' _ _ htu
      exact .report_bind c c' _ _ (.pure (.ok htu))

end Engine

end Generics
