import Generics.Resolve
import Generics.Proofs.Mirroring.Unifying
import Generics.Proofs.Resolution

/-!
# Twin requests are answered alike

An implementation is closed alike for twins, so every candidate leads to twins or is rejected in both
stores, and twin requests have the same outcome.
-/

namespace Generics

variable {c c' : Catalog} {K : DefId → Prop} {base ts us ts' us' : Types}

/-! ## Slots -/

/-- Slots at one position with twins. -/
structure Slot.Twin (K : DefId → Prop) (ts us : Types) (s s' : Slot) : Prop where
  position : s'.position = s.position
  fixed : Generics.Twin K ts us s.fixed s'.fixed
  candidate : Option.Rel (Generics.Twin K ts us) s.candidate s'.candidate

theorem Slot.Twin.grow {s s' : Slot} (h : s.Twin K ts us s') (hts : ts.Grows ts')
    (hus : us.Grows us') : s.Twin K ts' us' s' where
  position := h.position
  fixed := h.fixed.grow hts hus
  candidate := by
    have hcandidate := h.candidate
    revert hcandidate
    generalize s.candidate = t
    generalize s'.candidate = t'
    rintro (ht | _)
    · exact .some (ht.grow hts hus)
    · exact .none

/-- Implementations of one definition with twins as arguments. -/
structure Closing.Twin (K : DefId → Prop) (ts us : Types) (k k' : Closing) : Prop where
  definition : k'.definition = k.definition
  known : K k.definition
  args : List.Forall₂ (Generics.Twin K ts us) k.args k'.args
  free : k'.free = k.free
  limits : k'.limits = k.limits

theorem Closing.Twin.grow {k k' : Closing} (h : k.Twin K ts us k') (hts : ts.Grows ts')
    (hus : us.Grows us') : k.Twin K ts' us' k' :=
  { h with args := forall₂_twin_grow h.args hts hus }

namespace Closing

variable {k k' : Closing} {found found' σ τ : Substitution} {slots slots' : List Slot} {s s' : Slot}
  {abstraction abstraction' : TypeId}

theorem twin_slots (hc : c.Coincide c' K base) (hk : k.Twin K ts us k')
    (hfound : found.Twin K ts us found') :
    List.Forall₂ (Slot.Twin K ts us) (k.slots (c.view ts) found) (k'.slots (c'.view us) found') := by
  refine forall₂_of_getElem? (by simp [slots, hk.args.length_eq]) fun i s s' hs hs' => ?_
  rw [getElem?_slots, Option.map_eq_some_iff] at hs hs'
  obtain ⟨a, ha, rfl⟩ := hs
  obtain ⟨a', ha', rfl⟩ := hs'
  obtain ⟨b, hb, hab⟩ := exists_getElem?_of_forall₂ hk.args ha
  obtain rfl := Option.some.inj (hb.symm.trans ha')
  refine ⟨rfl, hab, ?_⟩
  have hget := hfound.get? ⟨k.definition, i⟩
  rw [hk.definition, hk.free]
  revert hget
  generalize found.get? ⟨k.definition, i⟩ = t
  generalize found'.get? ⟨k.definition, i⟩ = t'
  rintro (ht | _)
  · exact .some ht
  · simp only [View.candidateFor, hc.mentionsAny_eq hab]
    split
    · exact .none
    · exact .some hab

theorem twin_openPairs (hc : c.Coincide c' K base) (hk : k.Twin K ts us k')
    (hslots : List.Forall₂ (Slot.Twin K ts us) slots slots') :
    List.Forall₂ (fun e e' => Generics.Twin K ts us e.1 e'.1 ∧ Generics.Twin K ts us e.2 e'.2)
      (k.openPairs (c.view ts) slots) (k'.openPairs (c'.view us) slots') := by
  unfold openPairs
  rw [hk.free]
  refine List.rel_filterMap (R := Slot.Twin K ts us) (fun s s' hs => ?_) (List.rel_filter ?_ hslots)
  · have hcandidate := hs.candidate
    revert hcandidate
    generalize s.candidate = t
    generalize s'.candidate = t'
    rintro (ht | _)
    · exact .some ⟨hs.fixed, ht⟩
    · exact .none
  · intro s s' hs
    exact Bool.eq_iff_iff.1 (hc.mentionsAny_eq hs.fixed k.free).symm

theorem mirrors_bindFree (hc : c.Coincide c' K base) (hts : base.Grows ts) (hus : base.Grows us)
    (hk : k.Twin K ts us k') (hslots : List.Forall₂ (Slot.Twin K ts us) slots slots') :
    Engine.Mirrors (k.bindFree c slots) (k'.bindFree c' slots') ts us fun r r' ts' us' =>
      ExceptRel (Substitution.Twin K ts' us') r r' := by
  unfold bindFree
  refine .query_bind c c' ?_
  have hpairs := twin_openPairs hc hk hslots
  rw [hk.limits]
  refine Unifier.mirrors_unify hc hts hus ⟨hk.free, ?_⟩ k.limits ?_ ?_
  · rw [hk.definition]
    exact Substitution.twin_ofArgs hk.known hk.args
  · exact List.rel_map (fun _ _ h => h.1) hpairs
  · exact List.rel_map (fun _ _ h => h.2) hpairs

theorem checkCount_eq_of_twin (hk : k.Twin K ts us k') (hσ : σ.Twin K ts us τ) :
    k'.checkCount τ = k.checkCount σ := by
  simp only [checkCount, hk.free, funext hσ.contains_eq]

theorem mirrors_fillSlot (hc : c.Coincide c' K base) (hk : k.Twin K ts us k')
    (hσ : σ.Twin K ts us τ) (hs : s.Twin K ts us s') :
    Engine.Mirrors (k.fillSlot c σ s) (k'.fillSlot c' τ s') ts us fun s s' ts' us' =>
      s.Twin K ts' us' s' := by
  obtain ⟨i, fixed, candidate⟩ := s
  obtain ⟨_, fixed', candidate'⟩ := s'
  obtain ⟨rfl, hfixed, hcandidate⟩ := hs
  unfold fillSlot
  rcases hcandidate with ht | _
  · exact .pure ⟨rfl, hfixed, .some ht⟩
  · refine (Engine.mirrors_instantiate hc hfixed hσ).bind fun t u ts' us' hts' hus' htu => ?_
    refine .query_bind c c' ?_
    rw [hk.free, hc.mentionsAny_eq htu]
    split
    · exact .pure ⟨rfl, hfixed.grow hts' hus', .none⟩
    · exact .pure ⟨rfl, hfixed.grow hts' hus', .some htu⟩

theorem twin_closedArgs (hc : c.Coincide c' K base) (hk : k.Twin K ts us k')
    (hslots : List.Forall₂ (Slot.Twin K ts us) slots slots') :
    ExceptRel (List.Forall₂ (Generics.Twin K ts us)) (k.closedArgs (c.view ts) slots)
      (k'.closedArgs (c'.view us) slots') := by
  refine .mapM hslots ?_
  rintro ⟨_, fixed, candidate⟩ ⟨i, fixed', candidate'⟩ ⟨rfl, hfixed, hcandidate⟩
  unfold settle
  rcases hcandidate with @⟨t, t', ht⟩ | _
  · have hsettled : Slot.isSettled ⟨i, fixed', some t'⟩ (c'.view us) k'.free =
        Slot.isSettled ⟨i, fixed, some t⟩ (c.view ts) k.free := by
      have heq : t = fixed ↔ t' = fixed' := Relator.rel_eq (twin_biUnique K ts us) ht hfixed
      simp only [Slot.isSettled, hk.free, hc.mentionsAny_eq hfixed]
      congr 1
      rw [Bool.eq_iff_iff, beq_iff_eq, beq_iff_eq, heq]
    simp only [hsettled]
    split
    · exact .ok ht
    · exact .error _ _
  · exact .error _ _

/-! ## The closed type -/

section Rules

variable {ε α α' β β' : Type} {m : ExceptT ε Engine α} {m' : ExceptT ε Engine α'}
  {f : α → ExceptT ε Engine β} {f' : α' → ExceptT ε Engine β'} {P : α → α' → Types → Types → Prop}
  {Q : β → β' → Types → Types → Prop}

/-- Both fail, or they succeed with values that satisfy `Q`. -/
abbrev Mirrors (m : ExceptT ε Engine α) (m' : ExceptT ε Engine α') (ts us : Types)
    (Q : α → α' → Types → Types → Prop) : Prop :=
  Engine.Mirrors m.run m'.run ts us fun r r' ts' us' => ExceptRel (fun a a' => Q a a' ts' us') r r'

theorem Mirrors.bind (hm : Mirrors m m' ts us P)
    (hf : ∀ a a' ts' us', ts.Grows ts' → us.Grows us' → P a a' ts' us' →
      Mirrors (f a) (f' a') ts' us' Q) : Mirrors (m >>= f) (m' >>= f') ts us Q := by
  rw [Mirrors, ExceptT.run_bind, ExceptT.run_bind]
  refine Engine.Mirrors.bind hm ?_
  rintro _ _ ts' us' hts hus (⟨e, e'⟩ | hP)
  · exact .pure (.error e e')
  · exact hf _ _ ts' us' hts hus hP

theorem Mirrors.lift_bind {m : Engine α} {m' : Engine α'} (hm : Engine.Mirrors m m' ts us P)
    (hf : ∀ a a' ts' us', ts.Grows ts' → us.Grows us' → P a a' ts' us' →
      Mirrors (f a) (f' a') ts' us' Q) : Mirrors (monadLift m >>= f) (monadLift m' >>= f') ts us Q := by
  have hrun : ∀ {α β : Type} (m : Engine α) (f : α → ExceptT ε Engine β),
      ((monadLift m : ExceptT ε Engine α) >>= f).run = m >>= fun a => (f a).run :=
    fun _ _ => ExceptT.run_bind_lift _ _
  rw [Mirrors, hrun, hrun]
  exact Engine.Mirrors.bind hm hf

end Rules

theorem mirrors_argsFor (hc : c.Coincide c' K base) (hts : base.Grows ts) (hus : base.Grows us)
    (hk : k.Twin K ts us k') (hfound : found.Twin K ts us found') :
    Mirrors (k.argsFor c found) (k'.argsFor c' found') ts us fun xs xs' ts' us' =>
      List.Forall₂ (Generics.Twin K ts' us') xs xs' := by
  unfold argsFor
  refine .lift_bind (.query (P := fun slots slots' ts us => List.Forall₂ (Slot.Twin K ts us) slots slots')
    c c' (twin_slots hc hk hfound)) fun slots slots' ts' us' hts' hus' hslots => ?_
  have hk := hk.grow hts' hus'
  refine .lift_bind (mirrors_bindFree hc (hts.trans hts') (hus.trans hus') hk hslots) ?_
  rintro _ _ ts'' us'' hts'' hus'' (_ | @⟨σ, τ, hσ⟩)
  · exact Engine.Mirrors.pure (.error _ _)
  have hk := hk.grow hts'' hus''
  refine .bind (P := fun _ _ _ _ => True) ?_ fun _ _ ts₃ us₃ hts₃ hus₃ _ => ?_
  · rw [checkCount_eq_of_twin hk hσ]
    refine Engine.Mirrors.pure ?_
    cases k.checkCount σ with
    | error e => exact .error e e
    | ok _ => exact .ok trivial
  have hk := hk.grow hts₃ hus₃
  have hgrow := hts''.trans hts₃
  have hgrow' := hus''.trans hus₃
  refine .lift_bind (.mapM (Q := fun s s' ts us => s.Twin K ts us s') (hslots.imp fun _ _ hs =>
    hs.grow hgrow hgrow') (fun _ _ _ _ _ _ hts hus hs => hs.grow hts hus) ?_) ?_
  · intro s s' ts₄ us₄ hs hts₄ hus₄
    exact mirrors_fillSlot hc (hk.grow hts₄ hus₄)
      (hσ.grow (hts₃.trans hts₄) (hus₃.trans hus₄)) (hs.grow hts₄ hus₄)
  · intro slots slots' ts₄ us₄ hts₄ hus₄ hslots
    rw [Mirrors, ExceptT.run_mk, ExceptT.run_mk]
    exact .query c c' (twin_closedArgs hc (hk.grow hts₄ hus₄) hslots)

theorem mirrors_checkClosed (hc : c.Coincide c' K base) (hts : base.Grows ts) (hus : base.Grows us)
    (hk : k.Twin K ts us k') (hA : Generics.Twin K ts us abstraction abstraction') {xs xs' : List TypeId}
    (hxs : List.Forall₂ (Generics.Twin K ts us) xs xs') :
    Mirrors (k.checkClosed c abstraction xs) (k'.checkClosed c' abstraction' xs') ts us
      fun t t' ts' us' => Generics.Twin K ts' us' t t' := by
  unfold checkClosed
  rw [hk.definition]
  refine .lift_bind (Engine.mirrors_construct hc hts hus hk.known hxs) ?_
  rintro _ _ ts' us' hts' hus' (_ | @⟨t, t', ht⟩)
  · exact Engine.Mirrors.pure (.error _ _)
  refine .lift_bind (Engine.mirrors_isAssignable hc (hts.trans hts') (hus.trans hus')
    (hA.grow hts' hus') ht) ?_
  rintro accepted _ ts'' us'' hts'' hus'' rfl
  cases accepted with
  | true => exact Engine.Mirrors.pure (.ok (ht.grow hts'' hus''))
  | false => exact Engine.Mirrors.pure (.error _ _)

theorem mirrors_close (hc : c.Coincide c' K base) (hts : base.Grows ts) (hus : base.Grows us)
    (hk : k.Twin K ts us k') (hA : Generics.Twin K ts us abstraction abstraction')
    (hfound : found.Twin K ts us found') :
    Mirrors (k.close c abstraction found) (k'.close c' abstraction' found') ts us
      fun t t' ts' us' => Generics.Twin K ts' us' t t' :=
  (mirrors_argsFor hc hts hus hk hfound).bind fun _ _ _ _ hts' hus' hxs =>
    mirrors_checkClosed hc (hts.trans hts') (hus.trans hus') (hk.grow hts' hus')
      (hA.grow hts' hus') hxs

end Closing

/-! ## Requests -/

namespace Engine

theorem mirrors_definitionType (hc : c.Coincide c' K base) {d : DefId} (hd : K d) :
    Mirrors (definitionType c d) (definitionType c' d) ts us fun o o' ts' us' =>
      Option.Rel (Twin K ts' us') o o' := by
  refine .of_settles (settles_definitionType c d ts) (settles_definitionType c' d us) ?_
  rintro o o' ts' us' _ _ - - ⟨rfl, ho⟩ ⟨rfl, ho'⟩
  refine ⟨rfl, ?_⟩
  rw [hc.definitions d hd] at ho'
  revert ho ho'
  cases c.definitions.get? d with
  | none =>
    rintro rfl rfl
    exact .none
  | some info =>
    rintro ⟨t, rfl, ht⟩ ⟨t', rfl, ht'⟩
    refine .some ⟨_, .apply hd fun T hT => ?_, ht, ht'⟩
    obtain ⟨i, -, rfl⟩ := List.mem_map.1 hT
    exact .param hd

end Engine

/-- The outcome is the same: nothing, or one tree. -/
inductive Resolution.Twin (K : DefId → Prop) (ts us : Types) : Resolution → Resolution → Prop
  | invalid : Resolution.Twin K ts us .invalid .invalid
  | valid {t u : TypeId} (h : Generics.Twin K ts us t u) : Resolution.Twin K ts us (.valid t) (.valid u)

theorem Resolution.twin_ofClosed {xs xs' : List TypeId}
    (h : List.Forall₂ (Generics.Twin K ts us) xs xs') :
    (Resolution.ofClosed xs).Twin K ts us (.ofClosed xs') := by
  rcases h with _ | ⟨hx, _ | ⟨hy, h⟩⟩
  · exact .invalid
  · exact .valid hx
  · exact .invalid

namespace Request

/-- Requests about twins, under the same options. -/
structure Twin (K : DefId → Prop) (ts us : Types) (r r' : Request) : Prop where
  abstraction : Generics.Twin K ts us r.abstraction r'.abstraction
  implementation : Generics.Twin K ts us r.implementation r'.implementation
  options : r'.options = r.options

variable {r r' : Request} {k k' : Closing} {i i' : Implementation} {opened opened' : TypeId}

theorem Twin.grow (h : r.Twin K ts us r') (hts : ts.Grows ts') (hus : us.Grows us') :
    r.Twin K ts' us' r' :=
  ⟨h.abstraction.grow hts hus, h.implementation.grow hts hus, h.options⟩

theorem mirrors_resolveClosed (hc : c.Coincide c' K base) (hts : base.Grows ts)
    (hus : base.Grows us) (hr : r.Twin K ts us r') :
    Engine.Mirrors (r.resolveClosed c) (r'.resolveClosed c') ts us fun o o' ts' us' =>
      o.Twin K ts' us' o' := by
  unfold resolveClosed
  refine (Engine.mirrors_isAssignable hc hts hus hr.abstraction hr.implementation).bind ?_
  rintro valid _ ts' us' hts' hus' rfl
  refine .report_bind c c' _ _ (.pure ?_)
  cases valid with
  | true => exact .valid (hr.implementation.grow hts' hus')
  | false => exact .invalid

theorem mirrors_closeThrough (hc : c.Coincide c' K base) (hts : base.Grows ts) (hus : base.Grows us)
    (hr : r.Twin K ts us r') (hk : k.Twin K ts us k') (declared : List Param)
    {requested requested' : List TypeId}
    (hrequested : List.Forall₂ (Generics.Twin K ts us) requested requested')
    {candidate candidate' : Candidate}
    (hcandidate : List.Forall₂ (Generics.Twin K ts us) candidate.args candidate'.args) :
    Engine.Mirrors (r.closeThrough c k declared requested candidate)
      (r'.closeThrough c' k' declared requested' candidate') ts us fun o o' ts' us' =>
        ExceptRel (Generics.Twin K ts' us') o o' := by
  unfold closeThrough
  rw [hr.options]
  refine (Unifier.mirrors_unify hc hts hus ⟨rfl, Substitution.twin_empty ..⟩ r.options.limits
    hcandidate hrequested).bind ?_
  rintro _ _ ts' us' hts' hus' (_ | hfound)
  · exact .pure (.error _ _)
  · exact Closing.mirrors_close hc (hts.trans hts') (hus.trans hus') (hk.grow hts' hus')
      (hr.abstraction.grow hts' hus') hfound

theorem mirrors_closedThrough (hr : r'.options = r.options)
    {close close' : Candidate → Engine (Except Rejection TypeId)}
    {S : Candidate → Candidate → Prop} {candidates candidates' : List Candidate}
    (hcandidates : List.Forall₂ S candidates candidates')
    (hclose : ∀ x x' ts' us', S x x' → ts.Grows ts' → us.Grows us' →
      Engine.Mirrors (close x) (close' x') ts' us' fun o o' ts' us' =>
        ExceptRel (Generics.Twin K ts' us') o o')
    {closed closed' : List TypeId} (hclosed : List.Forall₂ (Generics.Twin K ts us) closed closed') :
    Engine.Mirrors (r.closedThrough c close candidates closed)
      (r'.closedThrough c' close' candidates' closed') ts us fun xs xs' ts' us' =>
        List.Forall₂ (Generics.Twin K ts' us') xs xs' := by
  induction hcandidates generalizing ts us closed closed' with
  | nil => exact .pure hclosed
  | cons hx _ ih =>
    rw [closedThrough, closedThrough]
    refine (hclose _ _ ts us hx (.refl ts) (.refl us)).bind ?_
    rintro _ _ ts' us' hts' hus' (_ | @⟨t, t', ht⟩)
    · exact .report_bind c c' _ _ (ih (fun x x' ts'' us'' hx hts'' hus'' =>
        hclose x x' ts'' us'' hx (hts'.trans hts'') (hus'.trans hus''))
        (forall₂_twin_grow hclosed hts' hus'))
    · refine .report_bind c c' _ _ ?_
      have hclosed := forall₂_twin_grow hclosed hts' hus'
      have hmem : t' ∈ closed' ↔ t ∈ closed := (List.rel_mem (twin_biUnique K ts' us') ht hclosed).symm
      have hadded : List.Forall₂ (Generics.Twin K ts' us')
          (if t ∈ closed then closed else closed ++ [t])
          (if t' ∈ closed' then closed' else closed' ++ [t']) := by
        simp only [hmem]
        split
        · exact hclosed
        · exact List.rel_append hclosed (.cons ht .nil)
      by_cases hfirst : r.options.ambiguity = .firstMatch
      · simp only [hr, if_pos hfirst]
        exact .pure hadded
      · simp only [hr, if_neg hfirst]
        exact ih (fun x x' ts'' us'' hx hts'' hus'' =>
          hclose x x' ts'' us'' hx (hts'.trans hts'') (hus'.trans hus'')) hadded

theorem mirrors_resolveOpen (hc : c.Coincide c' K base) (hts : base.Grows ts) (hus : base.Grows us)
    (hr : r.Twin K ts us r') (hd : K i.definition) (hi : i'.definition = i.definition)
    (hargs : List.Forall₂ (Generics.Twin K ts us) i.args i'.args) (hfree : i'.free = i.free)
    (hopened : Generics.Twin K ts us opened opened') :
    Engine.Mirrors (r.resolveOpen c i opened) (r'.resolveOpen c' i' opened') ts us
      fun o o' ts' us' => o.Twin K ts' us' o' := by
  unfold resolveOpen
  refine .query_bind c c' ?_
  have hdeclared : (c'.view us).paramsOf i'.definition opened' =
      (c.view ts).paramsOf i.definition opened := by
    rw [hi, View.paramsOf, View.paramsOf, hc.params_eq hopened]
  rw [hdeclared]
  generalize (c.view ts).paramsOf i.definition opened = declared
  refine (Engine.mirrors_candidates hc hts hus hopened hr.abstraction).bind ?_
  intro candidates candidates' ts' us' hts' hus' hcandidates
  have hempty : candidates'.isEmpty = candidates.isEmpty := by cases hcandidates <;> rfl
  rw [hempty]
  split
  · exact .report_bind c c' _ _ (.pure .invalid)
  have hr := hr.grow hts' hus'
  refine .query_bind c c' ?_
  have hrequested := hc.forall₂_argsOf hr.abstraction
  have hk : Closing.Twin K ts' us' (r.closing i) (r'.closing i') :=
    ⟨hi, hd, forall₂_twin_grow hargs hts' hus', hfree, congrArg (·.limits) hr.options⟩
  have hclosed : Engine.Mirrors
      (r.closedThrough c (r.closeThrough c (r.closing i) declared ((c.view ts').argsOf r.abstraction))
        candidates [])
      (r'.closedThrough c' (r'.closeThrough c' (r'.closing i') declared
        ((c'.view us').argsOf r'.abstraction)) candidates' []) ts' us'
      fun xs xs' ts us => List.Forall₂ (Generics.Twin K ts us) xs xs' := by
    refine mirrors_closedThrough hr.options hcandidates (fun x x' ts'' us'' hx hts'' hus'' => ?_) .nil
    exact mirrors_closeThrough hc (hts.trans (hts'.trans hts'')) (hus.trans (hus'.trans hus''))
      (hr.grow hts'' hus'') (hk.grow hts'' hus'') declared (forall₂_twin_grow hrequested hts'' hus'')
      (forall₂_twin_grow hx hts'' hus'')
  refine Engine.Mirrors.bind hclosed ?_
  intro closed closed' ts'' us'' _ _ hclosed
  rw [hclosed.length_eq]
  split
  · exact .report_bind c c' _ _ (.pure (Resolution.twin_ofClosed hclosed))
  · exact .pure (Resolution.twin_ofClosed hclosed)

end Request

end Generics
