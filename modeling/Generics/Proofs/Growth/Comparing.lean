import Generics.Proofs.Growth

/-!
# Comparing types only adds types

Instantiation and the walk through the supertypes intern on the way, and so does everything that is
built on them: assignability and construction.
-/

namespace Generics

namespace Growth

variable {c : Catalog} {ts us : Types} {t : TypeId} {σ : Substitution} {n : Nat}

theorem finite_argsOf (hc : c.Ordered ts) (t : TypeId) :
    ∀ a ∈ (c.view ts).argsOf t, ts.Finite a := by
  rw [View.argsOf, c.view_node? hc.plain]
  cases hnode : ts.get? t with
  | none =>
    intro a ha
    cases ha
  | some node => exact hc.finite_args hnode

/-! ## Instantiation -/

/-- The images that a walk remembers are finite. -/
def ImagesFinite (images : Engine.Images) (ts : Types) : Prop :=
  ∀ t u : TypeId, images[t]? = some u → ts.Finite u

theorem ImagesFinite.grow {images : Engine.Images} (h : ImagesFinite images ts)
    (hgrow : ts.Grows us) : ImagesFinite images us := fun t u hu => (h t u hu).grow hgrow

theorem ImagesFinite.insert {images : Engine.Images} {u : TypeId} (h : ImagesFinite images ts)
    (hu : ts.Finite u) : ImagesFinite (images.insert t u) ts := by
  intro t' u' h'
  rw [Std.TreeMap.getElem?_insert] at h'
  split at h'
  · cases h'
    exact hu
  · exact h t' u' h'

/-- Walks that remember finite images. -/
abbrev walking (c : Catalog) : Growth c (StateT Engine.Images Engine) :=
  (engine c).state ImagesFinite

theorem imageOf {walk : TypeId → StateT Engine.Images Engine TypeId} (hc : c.Ordered ts)
    (ht : ts.Finite t) (hσ : σ.Finite ts)
    (hwalk : ∀ a us, ts.Grows us → c.Ordered us → us.Finite a →
      (walking c).Ensures (walk a) us fun u vs => vs.Finite u) :
    (walking c).Ensures (Engine.imageOf σ walk t ((c.view ts).node? t)) ts
      fun u us => us.Finite u := by
  rw [c.view_node? hc.plain]
  cases hnode : ts.get? t with
  | none => exact (walking c).pure hc ht
  | some node =>
    cases node with
    | named d => exact (walking c).pure hc ht
    | param p =>
      refine (walking c).pure hc ?_
      cases hp : σ.get? p with
      | none => exact ht
      | some u => exact Substitution.finite_iff.1 hσ p u hp
    | app d args =>
      have hargs := hc.finite_args hnode
      refine (walking c).bind ((walking c).mapM (fun _ _ _ hvs h => h.grow hvs) hc
        fun a ha us hgrow hc => hwalk a us hgrow hc ((hargs a ha).grow hgrow)) ?_
      intro images us hgrow hc himages
      split
      · exact (walking c).pure hc (ht.grow hgrow)
      · exact (engine c).lift_state (fun _ _ _ hvs h => h.grow hvs) (intern hc himages)

theorem instantiateTo (hc : c.Ordered ts) (ht : ts.Finite t) (hσ : σ.Finite ts) :
    (walking c).Ensures (Engine.instantiateTo c σ n t) ts fun u us => us.Finite u := by
  induction n generalizing ts t with
  | zero => exact (walking c).pure hc ht
  | succ n ih =>
    intro images himages
    rw [Engine.instantiateTo, StateT.run_bind, StateT.run_get, pure_bind]
    cases hget : images[t]? with
    | some u => exact (engine c).pure hc ⟨himages t u hget, himages⟩
    | none =>
      suffices h : (walking c).Ensures (monadLift (Engine.query c (·.node? t)) >>= fun node => do
          let image ← Engine.imageOf σ (Engine.instantiateTo c σ n) t node
          modify (·.insert t image)
          pure image) ts fun u us => us.Finite u from h images himages
      refine (walking c).bind (P := fun node us => node = (c.view us).node? t ∧ us = ts)
        ((engine c).lift_state (fun _ _ _ hvs h => h.grow hvs) (query hc ⟨rfl, rfl⟩)) ?_
      rintro _ _ - - ⟨rfl, rfl⟩
      refine (walking c).bind (imageOf hc ht hσ fun a us hgrow hc ha => ih hc ha (hσ.grow hgrow)) ?_
      intro u us _ hc hu
      refine (walking c).bind ((engine c).modifyGet (P := fun _ us => us.Finite u) hc
        fun images himages => ⟨hu, himages.insert hu⟩) fun _ us _ hc hu => ?_
      exact (walking c).pure hc hu

theorem instantiate (hc : c.Ordered ts) (ht : ts.Finite t) (hσ : σ.Finite ts) :
    (engine c).Ensures (Engine.instantiate c t σ) ts fun u us => us.Finite u := by
  unfold Engine.instantiate
  split
  · exact (engine c).pure hc ht
  · refine query_bind ?_
    refine (engine c).bind (instantiateTo hc ht hσ ∅ fun _ _ h => by simp at h) ?_
    rintro ⟨u, _⟩ us - hc ⟨hu, -⟩
    exact (engine c).pure hc hu

/-! ## Supertypes -/

theorem climb {w : Climb} (hc : c.Ordered ts) (hw : ∀ u ∈ w.found.toList, ts.Finite u)
    (ht : ts.Finite t) :
    (engine c).Ensures (Engine.climb c n w t) ts
      fun w us => ∀ u ∈ w.found.toList, us.Finite u := by
  induction n generalizing ts t w with
  | zero => exact (engine c).pure hc hw
  | succ n ih =>
    have hinsert : ∀ u ∈ (w.found.insert t).toList, ts.Finite u := fun u hu =>
      (InternTable.mem_toList_insert.1 hu).elim (fun h => h ▸ ht) (hw u)
    unfold Engine.climb
    split
    · exact (engine c).pure hc hw
    · split
      · refine query_bind ?_
        obtain ⟨T, hT⟩ := ht
        obtain ⟨f, hσ, hdeclared, -⟩ := Catalog.declaredSupertypes_spec hc.grounded hT
        refine (engine c).bind ((engine c).foldlM
            (I := fun w us => ∀ u ∈ w.found.toList, us.Finite u) hc
            (fun w s hs us hgrow hc hw => ?_) hinsert) ?_
        · obtain ⟨S, hS, -⟩ := hdeclared s hs
          refine (engine c).bind (instantiate hc ⟨S, hS.grow hgrow⟩ ⟨f, hσ.grow hgrow⟩) ?_
          intro s vs hvs hc hs
          exact ih hc (fun u hu => (hw u hu).grow hvs) hs
        · intro w us _ hc hw
          exact of_types_eq_bind hc (Engine.leave_types w.guard t) fun _ => (engine c).pure hc hw
      · exact (engine c).pure hc hinsert

theorem supertypes (hc : c.Ordered ts) (ht : ts.Finite t) :
    (engine c).Ensures (Engine.supertypes c t) ts
      fun found us => ∀ u ∈ found.toList, us.Finite u := by
  refine (engine c).bind (climb hc (by simp [InternTable.toList, InternTable.empty]) ht) ?_
  intro w us _ hc hw
  have hrest : (engine c).Ensures (Engine.retire w.guard >>= fun _ => pure w.found) us
      fun found us => ∀ u ∈ found.toList, us.Finite u :=
    of_types_eq_bind hc (Engine.retire_types w.guard) fun _ => (engine c).pure hc hw
  split
  · exact report_bind hc hrest
  · exact hrest

/-- What a candidate is applied to are arguments of a type above. -/
theorem finite_of_mem_candidatesAmong {above : List TypeId} {abstraction : TypeId} {requested : Node}
    {b : Candidate} (hc : c.Ordered ts)
    (h : b ∈ (c.view ts).candidatesAmong above abstraction requested) :
    ∀ a ∈ b.args, ts.Finite a := by
  cases requested with
  | named d =>
    obtain ⟨u, -, rfl⟩ := List.mem_map.1 h
    exact nofun
  | app d args =>
    obtain ⟨u, -, rfl⟩ := List.mem_map.1 h
    exact finite_argsOf hc u
  | param p => cases h

theorem candidates {abstraction : TypeId} (hc : c.Ordered ts) (ht : ts.Finite t) :
    (engine c).Ensures (Engine.candidates c t abstraction) ts
      fun found us => ∀ b ∈ found, ∀ a ∈ b.args, us.Finite a := by
  refine query_bind ?_
  cases (c.view ts).node? abstraction with
  | none => exact (engine c).pure hc nofun
  | some requested =>
    refine (engine c).bind (supertypes hc ht) fun above us _ hc habove => ?_
    exact query_bind (report_bind hc ((engine c).pure hc fun b hb =>
      finite_of_mem_candidatesAmong hc hb))

/-! ## Assignability -/

section

variable {accepts : TypeId → TypeId → Comparison Bool} {target source : TypeId}

/-- Comparisons under a guard. -/
abbrev comparing (c : Catalog) : Growth c Comparison := guarded c (TypeId × TypeId)

theorem compatible {variance : Variance} (hc : c.Ordered ts) (htarget : ts.Finite target)
    (hsource : ts.Finite source)
    (haccepts : ∀ target source, ts.Finite target → ts.Finite source →
      (comparing c).Keeps (accepts target source) ts) :
    (comparing c).Keeps (Comparison.compatible c accepts variance target source) ts := by
  unfold Comparison.compatible
  split
  · exact (comparing c).pure hc trivial
  · cases variance with
    | invariant => exact (comparing c).pure hc trivial
    | covariant =>
      refine query_guarded_bind hc ?_
      split
      · exact haccepts _ _ htarget hsource
      · exact (comparing c).pure hc trivial
    | contravariant =>
      refine query_guarded_bind hc ?_
      split
      · exact haccepts _ _ hsource htarget
      · exact (comparing c).pure hc trivial

theorem acceptsAbove (hc : c.Ordered ts) (htarget : ts.Finite target) (hsource : ts.Finite source)
    (haccepts : ∀ us target source, ts.Grows us → c.Ordered us → us.Finite target →
      us.Finite source → (comparing c).Keeps (accepts target source) us) :
    (comparing c).Keeps (Comparison.acceptsAbove c accepts target source) ts := by
  refine lift_guarded_bind (supertypes hc hsource) fun above us hgrow hc habove => ?_
  split
  · exact (comparing c).pure hc trivial
  · refine query_guarded_bind hc ?_
    cases hvariant : (c.view us).variantInterface? target with
    | none => exact (comparing c).pure hc trivial
    | some found =>
      obtain ⟨d, variances, targets⟩ := found
      obtain ⟨T, hT⟩ := htarget.grow hgrow
      obtain ⟨-, Ts, -, -, -, -, rfl, htargets⟩ :=
        (c.variantInterface?_eq_some_iff hc.plain hT).1 hvariant
      refine (comparing c).anyM hc fun s hs vs hvs hc => query_guarded_bind hc ?_
      obtain ⟨S, hS⟩ := (habove s hs).grow hvs
      cases hargs : (c.view vs).argsAs? d targets.length s with
      | none => exact (comparing c).pure hc trivial
      | some sources =>
        obtain ⟨Ss, -, -, hsources⟩ := (c.argsAs?_eq_some_iff hc.plain hS).1 hargs
        refine (comparing c).allM hc fun x hx ws hws hc => ?_
        obtain ⟨variance, target, source⟩ := x
        obtain ⟨htarget, hsource⟩ := List.of_mem_zip (List.of_mem_zip hx).2
        exact compatible hc ((Types.finite_of_mem htargets htarget).grow (hvs.trans hws))
          ((Types.finite_of_mem hsources hsource).grow hws) fun t s ht hs =>
            haccepts ws t s (hgrow.trans (hvs.trans hws)) hc ht hs

theorem leave {pair : TypeId × TypeId} (hc : c.Ordered ts) :
    (comparing c).Keeps (Comparison.leave pair) ts := by
  intro g _
  change (engine c).Ensures (Engine.leave g pair >>= fun g => pure ((), g)) ts _
  exact of_types_eq_bind hc (Engine.leave_types g pair) fun _ =>
    (engine c).pure hc ⟨trivial, trivial⟩

theorem acceptsTo (hc : c.Ordered ts) (htarget : ts.Finite target) (hsource : ts.Finite source) :
    (comparing c).Keeps (Comparison.acceptsTo c n target source) ts := by
  induction n generalizing ts target source with
  | zero => exact (comparing c).pure hc trivial
  | succ n ih =>
    unfold Comparison.acceptsTo
    split
    · exact (comparing c).pure hc trivial
    · refine (comparing c).bind ((engine c).modifyGet (P := fun _ us => us = ts) hc
        fun _ _ => ⟨rfl, trivial⟩) ?_
      rintro entry us - - rfl
      cases entry with
      | entered =>
        refine (comparing c).bind (acceptsAbove hc htarget hsource
          fun us t s _ hc ht hs => ih hc ht hs) fun accepted us _ hc _ => ?_
        refine (comparing c).bind (leave hc) fun _ us _ hc _ => (comparing c).pure hc trivial
      | cycle => exact (comparing c).pure hc trivial
      | tooDeep => exact (comparing c).pure hc trivial
      | tooLong => exact (comparing c).pure hc trivial

theorem isAssignable (hc : c.Ordered ts) (htarget : ts.Finite target) (hsource : ts.Finite source) :
    (engine c).Keeps (Engine.isAssignable c target source) ts :=
  retire _ (acceptsTo hc htarget hsource)

end

/-! ## Construction -/

theorem violation? {r : Requirement} (hc : c.Ordered ts) (hσ : σ.Finite ts)
    (hr : Comparison.Known ts ts r) :
    (comparing c).Keeps (Comparison.violation? c σ r) ts := by
  cases r with
  | special p argument demanded => exact query_guarded_bind hc ((comparing c).pure hc trivial)
  | constraint p argument k =>
    obtain ⟨hk, hargument⟩ := hr
    refine lift_guarded_bind (instantiate hc hk hσ) fun k us hgrow hc hk => ?_
    refine (comparing c).bind (acceptsTo hc hk (Types.Finite.grow hargument hgrow)) ?_
    exact fun _ us _ hc _ => (comparing c).pure hc trivial

theorem known_of_mem_requirements {d : DefId} {info : Definition} {args : List TypeId}
    {r : Requirement} (hc : c.Ordered ts) (hinfo : c.definitions.get? d = some info)
    (hargs : ∀ a ∈ args, ts.Finite a) (hr : r ∈ info.requirements d args) :
    Comparison.Known ts ts r := by
  obtain ⟨i, decl, a, hdecl, ha, hr⟩ := mem_requirements_iff.1 hr
  have ha := hargs a (List.mem_of_getElem? ha)
  rcases hr with rfl | ⟨k, hk, rfl⟩
  · exact ha
  · refine ⟨hc.exists_unfolds ?_, ha⟩
    exact hc.constraints d info hinfo decl (List.mem_of_getElem? hdecl) k hk

theorem construct {d : DefId} {args : List TypeId} (hc : c.Ordered ts)
    (hargs : ∀ a ∈ args, ts.Finite a) :
    (engine c).Ensures (Engine.construct c d args) ts fun r us => ∀ t, r = .ok t → us.Finite t := by
  unfold Engine.construct
  cases hinfo : c.definitions.get? d with
  | none => exact (engine c).pure hc nofun
  | some info =>
    dsimp only
    split
    · exact (engine c).pure hc nofun
    · refine (engine c).bind (retire _ ((comparing c).findSomeM? hc fun r hr us hgrow hc => ?_)) ?_
      · have hargs' : ∀ a ∈ args, us.Finite a := fun a ha => (hargs a ha).grow hgrow
        exact violation? hc (Substitution.finite_ofArgs d hargs')
          (known_of_mem_requirements hc hinfo hargs' hr)
      · intro first us hgrow hc _
        cases first with
        | some violation => exact (engine c).pure hc nofun
        | none =>
          refine (engine c).bind (intern hc fun a ha => (hargs a ha).grow hgrow) ?_
          intro t us _ hc ht
          exact report_bind hc ((engine c).pure hc fun _ heq => Except.ok.inj heq ▸ ht)

end Growth

end Generics
