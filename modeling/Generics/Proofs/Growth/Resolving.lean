import Generics.Proofs.Growth.Comparing
import Generics.Cache

/-!
# Resolving only adds types

Unification, the closing of an implementation, and resolution itself intern types only through
instantiation, construction and open definitions, and always with arguments that are interned
already, however far they get.
-/

namespace Generics

theorem Substitution.Finite.insert {ts : Types} {σ : Substitution} {t : TypeId} (h : σ.Finite ts)
    (ht : ts.Finite t) (p : Param) : (σ.insert p t).Finite ts := by
  refine finite_iff.2 fun q u hu => ?_
  rw [get?_insert] at hu
  split at hu
  · exact Option.some.inj hu ▸ ht
  · exact finite_iff.1 h q u hu

namespace Growth

variable {c : Catalog} {ts us : Types} {t : TypeId} {σ : Substitution} {n : Nat}

/-! ## Unification -/

section

variable {u : Unknowns} {p : Param} {α β : Type} {Q : β → Types → Prop}

/-- Unifications under a guard. -/
abbrev unifying (c : Catalog) : Growth c Unifier := (guarded c Param).except UnifyError

theorem lift_unifying {m : Engine α} {P : α → Types → Prop} (hm : (engine c).Ensures m ts P) :
    (unifying c).Ensures (monadLift m) ts P :=
  (guarded c Param).lift_except ((engine c).lift_state (fun _ _ _ _ _ => trivial) hm)

theorem lift_unifying_bind {m : Engine α} {f : α → Unifier β} {P : α → Types → Prop}
    (hm : (engine c).Ensures m ts P)
    (hf : ∀ a us, ts.Grows us → c.Ordered us → P a us → (unifying c).Ensures (f a) us Q) :
    (unifying c).Ensures (monadLift m >>= f) ts Q :=
  (unifying c).bind (lift_unifying hm) hf

theorem query_unifying_bind {g : View → α} {f : α → Unifier β} (hc : c.Ordered ts)
    (h : (unifying c).Ensures (f (g (c.view ts))) ts Q) :
    (unifying c).Ensures (Unifier.query c g >>= f) ts Q := by
  refine lift_unifying_bind (query (P := fun a us => a = g (c.view ts) ∧ us = ts) hc ⟨rfl, rfl⟩) ?_
  rintro _ _ - - ⟨rfl, rfl⟩
  exact h

theorem finite_of_matchAll {free : List Param} {τ : Substitution} {as bs : List TypeId}
    (hc : c.Ordered ts) (hσ : σ.Finite ts) (has : ∀ a ∈ as, ts.Finite a)
    (hbs : ∀ b ∈ bs, ts.Finite b) (hlen : bs.length = as.length)
    (h : (c.view ts).matchAll free σ as bs = .ok τ) : τ.Finite ts := by
  obtain ⟨As, hAs⟩ := forall₂_of_forall_exists has
  obtain ⟨Bs, hBs⟩ := forall₂_of_forall_exists hbs
  obtain ⟨f, hf⟩ := hσ
  exact Substitution.exists_unfolds_of_extends hf
    (c.of_matchAll_eq_ok hc.plain hAs hBs hlen h).1

theorem finite_inferAmong {free : List Param} {d : DefId} {args above : List TypeId}
    (hc : c.Ordered ts) (hσ : σ.Finite ts) (hargs : ∀ a ∈ args, ts.Finite a)
    (habove : ∀ s ∈ above, ts.Finite s) :
    ((c.view ts).inferAmong free σ args
      (above.filterMap ((c.view ts).argsAs? d args.length))).Finite ts := by
  unfold View.inferAmong
  generalize hfound : List.findSome? _ _ = found
  cases found with
  | none => exact hσ
  | some τ =>
    obtain ⟨concretes, hmem, hτ⟩ := List.exists_of_findSome?_eq_some hfound
    obtain ⟨s, hs, hsargs⟩ := List.mem_filterMap.1 hmem
    obtain ⟨S, hS⟩ := habove s hs
    obtain ⟨Ss, -, hlen, hSs⟩ := (c.argsAs?_eq_some_iff hc.plain hS).1 hsargs
    have hmatched : (c.view ts).matchAll free σ args concretes = .ok τ := by
      cases hrun : (c.view ts).matchAll free σ args concretes with
      | error e => simp [hrun, Except.toOption] at hτ
      | ok υ => simpa [hrun, Except.toOption] using hτ
    exact finite_of_matchAll hc hσ hargs (fun b hb => Types.finite_of_mem hSs hb)
      (hSs.length_eq.trans hlen) hmatched

theorem infer {k bound : TypeId} (hc : c.Ordered ts) (hbound : ts.Finite bound)
    (hσ : σ.Finite ts) :
    (unifying c).Ensures (Unifier.infer c u p k bound σ) ts fun τ us => τ.Finite us := by
  refine query_unifying_bind hc ?_
  rw [c.view_node? hc.plain]
  cases hnode : ts.get? k with
  | none => exact (unifying c).pure hc hσ
  | some node =>
    cases node with
    | named d => exact (unifying c).pure hc hσ
    | param q =>
      refine (unifying c).pure hc ?_
      split
      · exact hσ.insert hbound q
      · exact hσ
    | app d args =>
      have hargs := hc.finite_args hnode
      refine lift_unifying_bind (supertypes hc hbound) fun above us hgrow hc habove => ?_
      refine query_unifying_bind hc ?_
      split
      · exact (guarded c Param).throw hc _
      · exact lift_unifying (query hc (finite_inferAmong hc (hσ.grow hgrow)
          (fun a ha => (hargs a ha).grow hgrow) habove))

theorem expandEach {expand : Substitution → Param → Unifier Substitution} (hc : c.Ordered ts)
    (hu : u.closure.Finite ts) (hσ : σ.Finite ts)
    (hexpand : ∀ σ p us, ts.Grows us → c.Ordered us → σ.Finite us →
      (unifying c).Ensures (expand σ p) us fun τ us => τ.Finite us) :
    (unifying c).Ensures (Unifier.expandEach c u expand σ p) ts fun τ us => τ.Finite us := by
  refine query_unifying_bind hc ?_
  rw [c.view_param?]
  cases hp : σ.get? p with
  | none => exact (unifying c).pure hc hσ
  | some bound =>
    cases hdecl : c.definitions.param? p with
    | none => exact (unifying c).pure hc hσ
    | some decl =>
      have hbound := Substitution.finite_iff.1 hσ p bound hp
      refine (unifying c).foldlM (I := fun (σ : Substitution) us => σ.Finite us) hc
        (fun σ k hk us hgrow hc hσ => ?_) hσ
      have hk : us.Finite k := (hc.grounded).constraints p decl hdecl k hk
      refine lift_unifying_bind (instantiate hc hk (hu.grow hgrow)) fun k vs hvs hc hk => ?_
      have hσ := hσ.grow hvs
      refine query_unifying_bind hc ?_
      split
      · refine (unifying c).bind (infer hc (hbound.grow (hgrow.trans hvs)) hσ) ?_
        intro τ ws hws hc hτ
        refine (unifying c).foldlM hc (fun τ q _ xs hxs hc hτ => ?_) hτ
        exact hexpand τ q xs (hgrow.trans (hvs.trans (hws.trans hxs))) hc hτ
      · exact (unifying c).pure hc hσ

theorem visiting {m : Unifier α} {P : α → Types → Prop} (hm : (unifying c).Ensures m ts P) :
    (unifying c).Ensures (Unifier.visiting p m) ts P := by
  refine (guarded c Param).except_mk ?_
  refine (guarded c Param).bind ((guarded c Param).run_except hm) fun a us _ hc ha g _ => ?_
  change (engine c).Ensures (Engine.leave g p >>= fun g => pure (a, g)) us _
  exact of_types_eq_bind hc (Engine.leave_types g p) fun _ => (engine c).pure hc ⟨ha, trivial⟩

theorem expandTo (hc : c.Ordered ts) (hu : u.closure.Finite ts) (hσ : σ.Finite ts) :
    (unifying c).Ensures (Unifier.expandTo c u n σ p) ts fun τ us => τ.Finite us := by
  induction n generalizing ts σ p with
  | zero => exact (guarded c Param).throw hc _
  | succ n ih =>
    refine (unifying c).bind (P := fun _ us => us = ts) ?_ ?_
    · exact (guarded c Param).lift_except ((engine c).modifyGet hc fun _ _ => ⟨rfl, trivial⟩)
    rintro entry us - - rfl
    cases entry with
    | entered => exact visiting (expandEach hc hu hσ fun τ q vs hvs hc hτ => ih hc (hu.grow hvs) hτ)
    | cycle => exact (unifying c).pure hc hσ
    | tooDeep => exact (guarded c Param).throw hc _
    | tooLong => exact (guarded c Param).throw hc _

theorem unify {patterns concretes : List TypeId} (hc : c.Ordered ts) (hu : u.closure.Finite ts)
    (hpatterns : ∀ a ∈ patterns, ts.Finite a) (hconcretes : ∀ b ∈ concretes, ts.Finite b) :
    (unifying c).Ensures (Unifier.unify c u patterns concretes) ts fun τ us => τ.Finite us := by
  unfold Unifier.unify
  split
  · exact (guarded c Param).throw hc _
  · rename_i hlen
    refine query_unifying_bind hc ?_
    cases hmatch : (c.view ts).matchAll u.free .empty patterns concretes with
    | error e => exact (guarded c Param).throw hc _
    | ok matched =>
      have hmatched := finite_of_matchAll hc (Substitution.finite_empty ts) hpatterns hconcretes
        (by omega) hmatch
      refine (unifying c).bind ((unifying c).foldlM (I := fun (σ : Substitution) us => σ.Finite us) hc
        (fun σ p _ us hgrow hc hσ => expandTo hc (hu.grow hgrow) hσ) hmatched) ?_
      intro σ us _ hc hσ
      refine lift_unifying_bind (of_types_eq hc (Engine.report_types c _)) ?_
      rintro _ _ - - rfl
      exact (unifying c).pure hc hσ

theorem runUnify {patterns concretes : List TypeId} (limits : Limits) (hc : c.Ordered ts)
    (hu : u.closure.Finite ts) (hpatterns : ∀ a ∈ patterns, ts.Finite a)
    (hconcretes : ∀ b ∈ concretes, ts.Finite b) :
    (engine c).Ensures (Unifier.runFresh limits (Unifier.unify c u patterns concretes)) ts
      fun r us => ∀ τ, r = .ok τ → τ.Finite us :=
  retire limits (unify hc hu hpatterns hconcretes)

end

/-! ## Closing -/

section

variable {k : Closing} {found : Substitution} {abstraction : TypeId}

/-- Computations that a candidate may be rejected by. -/
abbrev closing (c : Catalog) : Growth c (ExceptT Rejection Engine) := (engine c).except Rejection

theorem lift_closing_bind {α β : Type} {m : Engine α} {f : α → ExceptT Rejection Engine β}
    {P : α → Types → Prop} {Q : β → Types → Prop} (hm : (engine c).Ensures m ts P)
    (hf : ∀ a us, ts.Grows us → c.Ordered us → P a us → (closing c).Ensures (f a) us Q) :
    (closing c).Ensures (monadLift m >>= f) ts Q :=
  (closing c).bind ((engine c).lift_except hm) hf

/-- What a slot carries and may carry is finite. -/
def SlotFinite (s : Slot) (ts : Types) : Prop :=
  ts.Finite s.fixed ∧ ∀ t, s.candidate = some t → ts.Finite t

theorem SlotFinite.grow {s : Slot} (h : SlotFinite s ts) (hgrow : ts.Grows us) : SlotFinite s us :=
  ⟨h.1.grow hgrow, fun t ht => (h.2 t ht).grow hgrow⟩

theorem slotFinite_of_mem_slots {v : View} {s : Slot} (hk : ∀ a ∈ k.args, ts.Finite a)
    (hfound : found.Finite ts) (hs : s ∈ k.slots v found) : SlotFinite s ts := by
  obtain ⟨i, a, ha, rfl⟩ := Closing.mem_slots.1 hs
  have ha := hk a (List.mem_of_getElem? ha)
  refine ⟨ha, fun t ht => ?_⟩
  cases hget : found.get? ⟨k.definition, i⟩ with
  | some u =>
    simp only [View.candidateFor, hget, Option.some.injEq] at ht
    exact ht ▸ Substitution.finite_iff.1 hfound _ u hget
  | none =>
    simp only [View.candidateFor, hget, Option.ite_none_left_eq_some, Option.some.injEq] at ht
    exact ht.2 ▸ ha

theorem finite_of_mem_openPairs {v : View} {slots : List Slot} {pair : TypeId × TypeId}
    (hslots : ∀ s ∈ slots, SlotFinite s ts) (h : pair ∈ k.openPairs v slots) :
    ts.Finite pair.1 ∧ ts.Finite pair.2 := by
  obtain ⟨s, hs, hpair⟩ := List.mem_filterMap.1 h
  obtain ⟨t, ht, rfl⟩ := Option.map_eq_some_iff.1 hpair
  have hs := hslots s (List.mem_of_mem_filter hs)
  exact ⟨hs.1, hs.2 t ht⟩

theorem bindFree {slots : List Slot} (hc : c.Ordered ts) (hk : ∀ a ∈ k.args, ts.Finite a)
    (hslots : ∀ s ∈ slots, SlotFinite s ts) :
    (engine c).Ensures (k.bindFree c slots) ts fun r us => ∀ τ, r = .ok τ → τ.Finite us := by
  refine query_bind (runUnify k.limits hc (Substitution.finite_ofArgs k.definition hk) ?_ ?_)
  · rintro _ ha
    obtain ⟨pair, hpair, rfl⟩ := List.mem_map.1 ha
    exact (finite_of_mem_openPairs hslots hpair).1
  · rintro _ ha
    obtain ⟨pair, hpair, rfl⟩ := List.mem_map.1 ha
    exact (finite_of_mem_openPairs hslots hpair).2

theorem fillSlot {s : Slot} (hc : c.Ordered ts) (hσ : σ.Finite ts) (hs : SlotFinite s ts) :
    (engine c).Ensures (k.fillSlot c σ s) ts SlotFinite := by
  unfold Closing.fillSlot
  split
  · exact (engine c).pure hc hs
  · refine (engine c).bind (instantiate hc hs.1 hσ) fun t us hgrow hc ht => query_bind ?_
    split
    · exact (engine c).pure hc (hs.grow hgrow)
    · exact (engine c).pure hc ⟨hs.1.grow hgrow, fun u hu => Option.some.inj hu ▸ ht⟩

theorem finite_of_closedArgs {v : View} {slots : List Slot} {args : List TypeId}
    (hslots : ∀ s ∈ slots, SlotFinite s ts) (h : k.closedArgs v slots = .ok args) :
    ∀ a ∈ args, ts.Finite a := by
  intro a ha
  obtain ⟨s, hs, hsettle⟩ := exists_of_mem_right (mapM_eq_ok_iff.1 h) ha
  exact (hslots s hs).2 a (Closing.settle_eq_ok_iff.1 hsettle).1

theorem argsFor (hc : c.Ordered ts) (hk : ∀ a ∈ k.args, ts.Finite a) (hfound : found.Finite ts) :
    (closing c).Ensures (k.argsFor c found) ts fun args us => ∀ a ∈ args, us.Finite a := by
  refine lift_closing_bind (query (P := fun slots us => ∀ s ∈ slots, SlotFinite s us) hc
    fun s hs => slotFinite_of_mem_slots hk hfound hs) fun slots us hgrow hc hslots => ?_
  have hk := fun a ha => (hk a ha).grow hgrow
  refine lift_closing_bind (bindFree hc hk hslots) fun r us hgrow hc hr => ?_
  cases r with
  | error e => exact (engine c).throw hc _
  | ok τ =>
    have hτ := hr τ rfl
    have hslots := fun s hs => (hslots s hs).grow hgrow
    refine (closing c).bind (P := fun _ vs => vs = us)
      ((engine c).except_mk ((engine c).pure hc fun _ _ => rfl)) ?_
    rintro _ _ - - rfl
    refine lift_closing_bind ((engine c).mapM (fun _ _ _ hvs hs => hs.grow hvs) hc
      fun s hs vs hvs hc => fillSlot hc (hτ.grow hvs) ((hslots s hs).grow hvs)) ?_
    intro slots vs _ hc hslots
    exact (engine c).except_mk (query hc fun args hargs => finite_of_closedArgs hslots hargs)

theorem checkClosed {args : List TypeId} (hc : c.Ordered ts) (habstraction : ts.Finite abstraction)
    (hargs : ∀ a ∈ args, ts.Finite a) :
    (closing c).Ensures (k.checkClosed c abstraction args) ts fun t us => us.Finite t := by
  refine lift_closing_bind (construct hc hargs) fun r us hgrow hc hr => ?_
  cases r with
  | error e => exact (engine c).throw hc _
  | ok closed =>
    have hclosed := hr closed rfl
    refine lift_closing_bind (isAssignable hc (habstraction.grow hgrow) hclosed) ?_
    intro accepted us hgrow hc _
    split
    · exact (closing c).pure hc (hclosed.grow hgrow)
    · exact (engine c).throw hc _

theorem close (hc : c.Ordered ts) (hk : ∀ a ∈ k.args, ts.Finite a)
    (habstraction : ts.Finite abstraction) (hfound : found.Finite ts) :
    (closing c).Ensures (k.close c abstraction found) ts fun t us => us.Finite t :=
  (closing c).bind (argsFor hc hk hfound) fun _ _ hgrow hc hargs =>
    checkClosed hc (habstraction.grow hgrow) hargs

end

/-! ## Resolution -/

section

variable {r : Request} {d : DefId}

theorem definitionType (hc : c.Ordered ts) :
    (engine c).Ensures (Engine.definitionType c d) ts fun o us => ∀ t, o = some t → us.Finite t := by
  unfold Engine.definitionType
  cases c.definitions.get? d with
  | none => exact (engine c).pure hc nofun
  | some info =>
    refine (engine c).bind ((engine c).mapM (fun _ _ _ hvs ht => ht.grow hvs) hc
      fun i _ us _ hc => intern hc nofun) fun params us _ hc hparams => ?_
    refine (engine c).bind (intern hc hparams) fun t us _ hc ht => ?_
    exact (engine c).pure hc fun _ heq => Option.some.inj heq ▸ ht

theorem resolveClosed (hc : c.Ordered ts) (habstraction : ts.Finite r.abstraction)
    (himplementation : ts.Finite r.implementation) : (engine c).Keeps (r.resolveClosed c) ts := by
  refine (engine c).bind (isAssignable hc habstraction himplementation) fun valid us _ hc _ => ?_
  exact report_bind hc ((engine c).pure hc trivial)

theorem closeThrough {k : Closing} {declared : List Param} {requested : List TypeId}
    {candidate : Candidate} (hc : c.Ordered ts) (hk : ∀ a ∈ k.args, ts.Finite a)
    (habstraction : ts.Finite r.abstraction) (hrequested : ∀ a ∈ requested, ts.Finite a)
    (hcandidate : ∀ a ∈ candidate.args, ts.Finite a) :
    (engine c).Keeps (r.closeThrough c k declared requested candidate) ts := by
  refine (engine c).bind
    (runUnify _ hc (Substitution.finite_empty ts) hcandidate hrequested) ?_
  intro found us hgrow hc hfound
  cases found with
  | error e => exact (engine c).pure hc trivial
  | ok found =>
    refine (engine c).mono ((engine c).run_except (close hc (fun a ha => (hk a ha).grow hgrow)
      (habstraction.grow hgrow) (hfound found rfl))) fun _ _ _ _ => trivial

theorem closedThrough {close : Candidate → Engine (Except Rejection TypeId)}
    {candidates : List Candidate} {closed : List TypeId} (hc : c.Ordered ts)
    (hclose : ∀ b ∈ candidates, ∀ us, ts.Grows us → c.Ordered us → (engine c).Keeps (close b) us) :
    (engine c).Keeps (r.closedThrough c close candidates closed) ts := by
  induction candidates generalizing ts closed with
  | nil => exact (engine c).pure hc trivial
  | cons b rest ih =>
    refine (engine c).bind (hclose b List.mem_cons_self ts (.refl ts) hc) fun found us hgrow hc _ => ?_
    have hrest : ∀ closed, (engine c).Keeps (r.closedThrough c close rest closed) us := fun _ =>
      ih hc fun b hb vs hvs => hclose b (List.mem_cons_of_mem _ hb) vs (hgrow.trans hvs)
    cases found with
    | error e => exact report_bind hc (hrest closed)
    | ok t =>
      refine report_bind hc ?_
      dsimp only
      split
      · exact (engine c).pure hc trivial
      · exact hrest _

theorem resolveOpen {i : Implementation} {opened : TypeId} (hc : c.Ordered ts)
    (habstraction : ts.Finite r.abstraction) (hi : ∀ a ∈ i.args, ts.Finite a)
    (hopened : ts.Finite opened) : (engine c).Keeps (r.resolveOpen c i opened) ts := by
  refine query_bind ((engine c).bind (candidates hc hopened) fun found us hgrow hc hfound => ?_)
  split
  · exact report_bind hc ((engine c).pure hc trivial)
  · refine query_bind ((engine c).bind (closedThrough hc fun b hb vs hvs hc => ?_) ?_)
    · exact closeThrough hc (fun a ha => (hi a ha).grow (hgrow.trans hvs))
        (habstraction.grow (hgrow.trans hvs)) (fun a ha => (finite_argsOf ‹_› _ a ha).grow hvs)
        fun a ha => (hfound b hb a ha).grow hvs
    · intro closed vs _ hc _
      split
      · exact report_bind hc ((engine c).pure hc trivial)
      · exact (engine c).pure hc trivial

theorem resolve (hc : c.Ordered ts) : (engine c).Keeps (r.resolve c) ts := by
  refine query_bind ?_
  cases hi : (c.view ts).examine r.abstraction r.implementation with
  | error e => exact (engine c).pure hc trivial
  | ok i =>
    obtain ⟨⟨A, hA, -⟩, ⟨I, hI, -⟩, hargs, -⟩ := (c.examine_eq_ok_iff hc.plain).1 hi
    dsimp only
    split
    · exact (engine c).map (resolveClosed hc ⟨A, hA⟩ ⟨I, hI⟩) fun _ _ _ _ => trivial
    · refine (engine c).bind (definitionType hc) fun opened us hgrow hc hopened => ?_
      cases opened with
      | none => exact (engine c).pure hc trivial
      | some opened =>
        refine (engine c).map (resolveOpen hc ⟨A, hA.grow hgrow⟩ (fun a ha => ?_)
          (hopened opened rfl)) fun _ _ _ _ => trivial
        rw [hargs] at ha
        exact (finite_argsOf ‹_› _ a ha).grow hgrow

theorem servesEveryInstance {abstraction implementation : TypeId} (hc : c.Ordered ts) :
    (engine c).Keeps (Engine.servesEveryInstance c abstraction implementation) ts := by
  refine query_bind ?_
  cases (c.view ts).abstractionDefinition abstraction with
  | error e => exact (engine c).pure hc trivial
  | ok d =>
    refine (engine c).bind (definitionType hc) fun opened us _ hc _ => ?_
    cases opened with
    | none => exact (engine c).pure hc trivial
    | some representative =>
      refine (engine c).bind (resolve hc) fun outcome us _ hc _ => ?_
      cases outcome with
      | error e => exact (engine c).pure hc trivial
      | ok outcome => exact report_bind hc ((engine c).pure hc trivial)

theorem closedImplementation {abstraction implementation : TypeId} (hc : c.Ordered ts) :
    (engine c).Keeps (Engine.closedImplementation c abstraction implementation) ts :=
  (engine c).bind (resolve hc) fun _ _ _ hc _ => (engine c).pure hc trivial

theorem getOrResolve {k : Cache} {abstraction implementation : TypeId} (hc : c.Ordered ts) :
    (engine c).Keeps (k.getOrResolve c abstraction implementation) ts := by
  unfold Cache.getOrResolve
  split
  · exact report_bind hc ((engine c).pure hc trivial)
  · refine (engine c).bind (resolve hc) fun outcome us _ hc _ => ?_
    cases outcome <;> exact (engine c).pure hc trivial

end

end Growth

end Generics
