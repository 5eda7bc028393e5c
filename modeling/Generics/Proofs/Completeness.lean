import Generics.Proofs.Resolution

/-!
# One way up

Where a single application of the abstraction's definition lies above the open definition of an
implementation, it is the only candidate.  An instance of the implementation over which it becomes the
abstraction is then found exactly if the types that unification finds agree with it, and no other
instance is.
-/

namespace Generics

namespace Request

variable {c : Catalog} {base ts us : Types} {r : Request} {k : Closing} {i : Implementation}
  {declared : List Param} {A B : Tree} {g : DefId} {Fs As Bs : List Tree} {h : Param → Tree}
  {answer : Except UnifyError Substitution} {outcome : Except Rejection TypeId} {cut : Bool}
  {found : Substitution} {closed opened b : TypeId} {p : Param} {t : TypeId} {O : Tree}

/-- The instance of the implementation under `h` can be constructed, and the candidate `B` becomes the
abstraction `A` over it; the free parameters are reached through `B`, and their constraints leave
nothing to be inferred. -/
structure Target (c : Catalog) (base ts : Types) (k : Closing) (B A : Tree) (Fs : List Tree)
    (h : Param → Tree) : Prop where
  rigid : Rigid k.free h
  image : B.subst (.assign k.definition (Fs.map (Tree.subst h))) = A
  reached : ∀ p ∈ k.free, ∃ (i : Nat) (F : Tree), Fs[i]? = some F ∧ p ∈ F.params ∧
    ⟨k.definition, i⟩ ∈ B.params
  supported : ∀ p ∈ k.free,
    Unifier.Supported c base k.free (.assign k.definition Fs) (· ∈ k.free) p (h p)
  constructible : Constructible c ts k.definition (Fs.map (Tree.subst h))

theorem Target.grow (hk : Target c base ts k B A Fs h) (hgrow : ts.Grows us) :
    Target c base us k B A Fs h :=
  { hk with constructible := hk.constructible.grow hgrow }

/-! ## What one candidate leads to -/

section

variable (hleads : Leads c base ts us r k declared (.app g As) Fs As Bs answer outcome cut)
  (htarget : Target c base ts k (.app g Bs) (.app g As) Fs h)
  (hdeclared : ∀ p ∈ (Tree.app g Bs).params, p ∈ declared)

include hleads

/-- The types found turn the candidate into the abstraction. -/
theorem Leads.exists_image (hanswer : answer = .ok found) :
    ∃ f, found.Unfolds us f ∧ Bs.map (Tree.subst f) = As := by
  obtain ⟨hsolves, hext⟩ := hleads.solves found hanswer
  obtain ⟨f, hf⟩ := Substitution.exists_unfolds_of_extends (Substitution.unfolds_empty us) hext
  refine ⟨f, hf, hsolves.map_subst_eq hf.agrees fun q hq => (hf q).2 ?_⟩
  rw [← Option.not_isSome_iff_eq_none]
  exact fun hsome => hq (Substitution.of_contains_of_extends_empty hext hsome)

theorem Leads.exists_get? (hanswer : answer = .ok found)
    (hdeclared : ∀ p ∈ (Tree.app g Bs).params, p ∈ declared) (hp : p ∈ (Tree.app g Bs).params) :
    ∃ t, found.get? p = some t := by
  rw [← Option.isSome_iff_exists]
  refine (hleads.solves found hanswer).1.contains ⟨hdeclared p hp, ?_⟩
  simpa using hp

/-- An instance that is consistent with the types found turns the candidate into the abstraction. -/
theorem Leads.image_eq (hanswer : answer = .ok found) (hconsistent : k.Consistent us Fs found h)
    (hdeclared : ∀ p ∈ (Tree.app g Bs).params, p ∈ declared)
    (hown : ∀ p ∈ (Tree.app g Bs).params, p.owner = k.definition ∧ p.index < Fs.length) :
    (Tree.app g Bs).subst (.assign k.definition (Fs.map (Tree.subst h))) = .app g As := by
  obtain ⟨f, hf, hsolved⟩ := hleads.exists_image hanswer
  rw [← hsolved, ← Tree.subst_app]
  refine Tree.subst_congr ?_
  rintro ⟨o, i⟩ hp
  obtain ⟨rfl, hlt⟩ := hown _ hp
  obtain ⟨t, ht⟩ := hleads.exists_get? hanswer hdeclared hp
  have hF := List.getElem?_eq_getElem hlt
  rw [Tree.assign_of_getElem? (by rw [List.getElem?_map, hF, Option.map_some])]
  exact ((hconsistent i _ hF).1 t ht).unique ((hf _).1 t ht)

include htarget

/-- The parameters of the candidate are found to be what the target has for them. -/
theorem Leads.unfolds_of_found (hanswer : answer = .ok found) (hp : p ∈ (Tree.app g Bs).params)
    (ht : found.get? p = some t) :
    us.Unfolds t (.assign k.definition (Fs.map (Tree.subst h)) p) := by
  obtain ⟨f, hf, hsolved⟩ := hleads.exists_image hanswer
  have himage : (Tree.app g Bs).subst f = (Tree.app g Bs).subst
      (.assign k.definition (Fs.map (Tree.subst h))) := by
    rw [htarget.image, Tree.subst_app, hsolved]
  rw [← Tree.eq_of_subst_eq himage hp]
  exact (hf p).1 t ht

include hdeclared

theorem Leads.reached (hanswer : answer = .ok found) : k.Reached Fs found := by
  intro p hp
  obtain ⟨j, F, hF, hpF, hj⟩ := htarget.reached p hp
  obtain ⟨t, ht⟩ := hleads.exists_get? hanswer hdeclared hj
  exact ⟨hp, j, F, t, hF, hpF, ht⟩

/-- Nothing but the target can be found, and only where the types found agree with it. -/
theorem Leads.of_eq_ok (houtcome : outcome = .ok closed) :
    ∃ found, answer = .ok found ∧ k.Consistent us Fs found h ∧
      us.Unfolds closed (.apply k.definition (Fs.map (Tree.subst h))) := by
  obtain ⟨found, xs, σ, h', hanswer, hsolution, hclosed, -⟩ := hleads.sound closed houtcome
  have heq : h' = h := by
    funext p
    by_cases hp : p ∈ k.free
    · obtain ⟨j, F, hF, hpF, hj⟩ := htarget.reached p hp
      obtain ⟨t, ht⟩ := hleads.exists_get? hanswer hdeclared hj
      have hfound := hleads.unfolds_of_found htarget hanswer hj ht
      rw [Tree.assign_of_getElem? (A := F.subst h) (by rw [List.getElem?_map, hF, Option.map_some])]
        at hfound
      exact Tree.eq_of_subst_eq (((hsolution.consistent j F hF).1 t ht).unique hfound) hpF
    · rw [hsolution.rigid p hp, htarget.rigid p hp]
  subst heq
  exact ⟨found, hanswer, hsolution.consistent, hclosed⟩

/-- The target is found where the types found agree with it and the abstraction accepts it, unless a
guard objects. -/
theorem Leads.exists_eq_ok (hcut : cut = false) (hanswer : answer = .ok found)
    (hconsistent : k.Consistent us Fs found h)
    (haccepts : Accepts c base (.app g As) (.apply k.definition (Fs.map (Tree.subst h)))) :
    ∃ closed, outcome = .ok closed ∧
      us.Unfolds closed (.apply k.definition (Fs.map (Tree.subst h))) :=
  hleads.complete hcut found h hanswer
    ⟨htarget.rigid, hconsistent, hleads.reached htarget hdeclared hanswer, htarget.supported⟩
    htarget.constructible haccepts

end

/-! ## One candidate -/

theorem Leads.mono {cut' : Bool}
    (hleads : Leads c base ts us r k declared A Fs As Bs answer outcome cut)
    (hcut : cut' = false → cut = false) :
    Leads c base ts us r k declared A Fs As Bs answer outcome cut' where
  solves := hleads.solves
  unifies h := hleads.unifies (hcut h)
  sound := hleads.sound
  complete h := hleads.complete (hcut h)

/-- The parameters that the open definition declares. -/
theorem mem_paramsOf_opened (hplain : c.overrides = []) {d : DefId} {n : Nat}
    (hopened : ts.Unfolds opened (.opened d n)) :
    p ∈ (c.view ts).paramsOf d opened ↔ p.owner = d ∧ p.index < n := by
  rw [View.paramsOf, List.mem_filter, c.mem_params_iff hplain hopened, Tree.mem_params_opened,
    beq_iff_eq]
  exact ⟨And.left, fun hp => ⟨hp, hp.1⟩⟩

/-- A single application above the open definition leads to the outcome. -/
theorem settles_resolveOpen_of_filter (hc : c.Grounded base) (hbase : base.Grows ts)
    (hA : ts.Unfolds r.abstraction (.app g As)) (hFs : List.Forall₂ ts.Unfolds i.args Fs)
    (hopened : ts.Unfolds opened O) (hb : ts.Unfolds b (.app g Bs)) {above : InternTable TypeId}
    (habove : Engine.Lasts (Engine.supertypes c opened) ts above)
    (hfilter : above.toList.filter ((c.view ts).isApplicationOf g) = [b]) :
    Engine.Settles (r.resolveOpen c i opened) ts fun res us cut => ∃ answer outcome,
      Engine.Begins (r.unification c ((c.view ts).paramsOf i.definition opened)
        ((c.view ts).argsOf b) ((c.view ts).argsOf r.abstraction)) ts answer us cut ∧
      Leads c base ts us r (r.closing i) ((c.view ts).paramsOf i.definition opened) (.app g As) Fs As
        Bs answer outcome cut ∧
      res = .ofClosed outcome.toOption.toList := by
  have hplain := hc.plain
  have hunfold : ∀ u ∈ above.toList, ∃ U, ts.Unfolds u U := by
    obtain ⟨_, hlies⟩ := (Engine.settles_supertypes hc hbase hopened).exists_of_lasts habove
    intro u hu
    obtain ⟨U, hU, -⟩ := hlies.sound u hu
    exact ⟨U, hU⟩
  have hcandidates : Engine.Settles (Engine.candidates c opened r.abstraction) ts fun cs us _ =>
      cs = [⟨b, (c.view ts).argsOf b⟩] ∧ ts = us := by
    obtain ⟨args, hargs, -⟩ := hA.exists_app
    unfold Engine.candidates
    refine .query_bind c (fun us hus => ?_) ?_
    · simp only [Catalog.view_node? hplain, hargs, hus _ _ hargs]
    simp only [Catalog.view_node? hplain, hargs]
    refine .of_lasts_bind habove (.query_bind c (fun us hus =>
      Engine.candidatesAmong_grow hplain hunfold _ hus) (.report_bind c _ (.pure fun _ => ⟨?_, rfl⟩)))
    rw [View.candidatesAmong, hfilter]
    rfl
  unfold resolveOpen
  refine .query_bind c (fun vs hvs => c.paramsOf_grow hplain hopened hvs i.definition) ?_
  refine hcandidates.bind ?_
  rintro _ _ cut - ⟨rfl, rfl⟩
  have hBs := Engine.exists_argsOf_unfold hplain hb
  have hAs := Engine.exists_argsOf_unfold hplain hA
  simp only [List.isEmpty_cons, Bool.false_eq_true, if_false]
  refine .query_bind c (fun vs hvs => c.argsOf_grow hplain hA hvs) ?_
  have hclose := settles_closeThrough (k := r.closing i)
    ((c.view ts).paramsOf i.definition opened) ⟨b, (c.view ts).argsOf b⟩ hc hbase hA hFs hBs hAs
  refine (settles_closedThrough_singleton hclose).bind ?_
  rintro _ us cut' hus ⟨outcome, ⟨answer, hbegins, hleads⟩, rfl⟩
  have hshort : ¬1 < outcome.toOption.toList.length := by
    cases outcome <;> simp [Except.toOption]
  rw [if_neg hshort]
  refine .pure ⟨answer, outcome, hbegins.mono (.refl us) fun hcut => ?_, hleads.mono fun hcut => ?_, rfl⟩
  all_goals
    simp only [Bool.or_eq_false_iff] at hcut
    exact hcut.2.1

end Request

/-! ## The application above the open definition -/

/-- What is known when a single application `b` of `g` lies above the open definition of `d`. -/
structure Overlying (c : Catalog) (base ts : Types) (d g : DefId) (opened b : TypeId)
    (above : InternTable TypeId) (info : Definition) (Bs : List Tree) : Prop where
  known : c.definitions.get? d = some info
  grows : base.Grows ts
  opens : Engine.Lasts (Engine.definitionType c d) ts (some opened)
  unfolds_opened : ts.Unfolds opened (.opened d info.arity)
  unfolds : ts.Unfolds b (.app g Bs)
  supertype : Supertype c base (.opened d info.arity) (.app g Bs)
  lasts : Engine.Lasts (Engine.supertypes c opened) ts above
  filter : above.toList.filter ((c.view ts).isApplicationOf g) = [b]

theorem exists_overlying {c : Catalog} {s s₁ s₂ : Session} {d g : DefId} {opened b : TypeId}
    {above : InternTable TypeId} (hc : c.Grounded s.types)
    (hopen : Engine.definitionType c d s = (some opened, s₁))
    (habove : Engine.supertypes c opened s₁ = (above, s₂))
    (hunique : above.toList.filter ((c.view s₂.types).isApplicationOf g) = [b]) :
    ∃ info Bs, Overlying c s.types s₂.types d g opened b above info Bs := by
  obtain ⟨hgrow₁, ⟨-, hopened⟩, hopens⟩ :=
    (Engine.settles_definitionType c d s.types).lasts.of_apply_eq hopen
  split at hopened
  · cases hopened
  rename_i info hinfo
  obtain ⟨_, heq, hopened⟩ := hopened
  cases heq
  obtain ⟨hgrow₂, hlies, hlasts⟩ :=
    (Engine.settles_supertypes hc hgrow₁ hopened).lasts.of_apply_eq habove
  have hb : b ∈ above.toList.filter ((c.view s₂.types).isApplicationOf g) := by
    rw [hunique]
    exact List.mem_singleton_self b
  obtain ⟨hmem, happ⟩ := List.mem_filter.1 hb
  obtain ⟨B, hB, hOB⟩ := hlies.sound b hmem
  rw [View.isApplicationOf, Catalog.view_node? hc.plain] at happ
  cases hB with
  | named h => simp [h] at happ
  | param h => simp [h] at happ
  | @app _ e args Bs h hargs =>
    obtain rfl : e = g := by simpa [h] using happ
    exact ⟨info, Bs, hinfo, hgrow₁.trans hgrow₂, hopens.grow hgrow₂, hopened.grow hgrow₂,
      .app h hargs, hOB, hlasts, hunique⟩

section

variable {c : Catalog} {base ts us : Types} {d g : DefId} {opened b : TypeId}
  {above : InternTable TypeId} {info : Definition} {Bs As : List Tree}

theorem Overlying.filter_grow (hc : c.Grounded base)
    (h : Overlying c base ts d g opened b above info Bs) (hgrow : ts.Grows us) :
    above.toList.filter ((c.view us).isApplicationOf g) = [b] := by
  obtain ⟨_, habove⟩ :=
    (Engine.settles_supertypes hc h.grows h.unfolds_opened).exists_of_lasts h.lasts
  rw [← h.filter]
  refine List.filter_congr fun u hu => ?_
  obtain ⟨U, hU, -⟩ := habove.sound u hu
  obtain ⟨node, hnode, -⟩ := hU.exists_node
  rw [View.isApplicationOf, View.isApplicationOf, Catalog.view_node? hc.plain,
    Catalog.view_node? hc.plain, hnode, hgrow _ _ hnode]

theorem Overlying.grow (hc : c.Grounded base)
    (h : Overlying c base ts d g opened b above info Bs) (hgrow : ts.Grows us) :
    Overlying c base us d g opened b above info Bs where
  known := h.known
  grows := h.grows.trans hgrow
  opens := h.opens.grow hgrow
  unfolds_opened := h.unfolds_opened.grow hgrow
  unfolds := h.unfolds.grow hgrow
  supertype := h.supertype
  lasts := h.lasts.grow hgrow
  filter := h.filter_grow hc hgrow

theorem Overlying.owned (hc : c.Declared base)
    (h : Overlying c base ts d g opened b above info Bs) : (Tree.app g Bs).Owned c.definitions d :=
  (hereditary_owned hc d).supertype (Tree.owned_opened h.known) h.supertype

theorem Overlying.params_subset (hc : c.Declared base)
    (h : Overlying c base ts d g opened b above info Bs) :
    ∀ p ∈ (Tree.app g Bs).params, p.owner = d ∧ p.index < info.arity := by
  intro p hp
  have howner : p.owner = d := (h.owned hc).owner p hp
  exact ⟨howner, Tree.index_lt_arity (howner ▸ h.known) ((h.owned hc).wellformed.isSome_param? hp)⟩

theorem Overlying.mem_paramsOf (hc : c.Declared base)
    (h : Overlying c base ts d g opened b above info Bs) :
    ∀ p ∈ (Tree.app g Bs).params, p ∈ (c.view ts).paramsOf d opened := fun p hp =>
  (Request.mem_paramsOf_opened hc.plain h.unfolds_opened).2 (h.params_subset hc p hp)

/-- Instances of the application above the open definition are well-formed. -/
theorem Overlying.wellformed_image (hc : c.Declared base)
    (h : Overlying c base ts d g opened b above info Bs) {Ts : List Tree}
    (hlen : info.arity = Ts.length) (hTs : ∀ T ∈ Ts, T.Wellformed c.definitions) :
    ((Tree.app g Bs).subst (.assign d Ts)).Wellformed c.definitions :=
  Tree.wellformed_subst_assign (h.owned hc).wellformed (h.owned hc).owner h.known hlen hTs

/-- Instances of the application above the open definition accept the instances of the definition. -/
theorem Overlying.accepts_image (hc : c.WellDeclared base)
    (h : Overlying c base ts d g opened b above info Bs) {Ts : List Tree}
    (hlen : info.arity = Ts.length) :
    Accepts c base ((Tree.app g Bs).subst (.assign d Ts)) (.apply d Ts) := by
  rw [← Tree.subst_assign_opened hlen.symm]
  exact .supertype (h.supertype.subst hc (Tree.wellformed_opened h.known)
    (by simp [Tree.definition?_opened]) _)

/-- A request through the only application above the open definition ends as that candidate does. -/
theorem Request.settles_resolve_of_overlying {r : Request} {i : Implementation} {I : Tree}
    (hc : c.Grounded base) (h : Overlying c base ts i.definition g opened b above info Bs)
    (hi : (c.view ts).examine r.abstraction r.implementation = .ok i) (hfree : i.free ≠ [])
    (hA : ts.Unfolds r.abstraction (.app g As)) (hI : ts.Unfolds r.implementation I) :
    Engine.Settles (r.resolve c) ts fun res us cut => ∃ answer outcome,
      Engine.Begins (r.unification c ((c.view ts).paramsOf i.definition opened)
        ((c.view ts).argsOf b) ((c.view ts).argsOf r.abstraction)) ts answer us cut ∧
      Leads c base ts us r (r.closing i) ((c.view ts).paramsOf i.definition opened) (.app g As) I.args
        As Bs answer outcome cut ∧
      res = .ok (.ofClosed outcome.toOption.toList) := by
  obtain ⟨-, -, hargs, -⟩ := (c.examine_eq_ok_iff hc.plain).1 hi
  have hFs : List.Forall₂ ts.Unfolds i.args I.args := by
    rw [hargs]
    exact Engine.exists_argsOf_unfold hc.plain hI
  refine settles_resolve_of_free_ne_nil hc.plain hi hfree (.of_lasts_bind h.opens ?_)
  refine (settles_resolveOpen_of_filter hc h.grows hA hFs h.unfolds_opened h.unfolds h.lasts
    h.filter).map ?_
  rintro _ us cut - ⟨answer, outcome, hbegins, hleads, rfl⟩ cut'
  have hmono : (cut' || cut) = false → cut = false := fun hcut => (Bool.or_eq_false_iff.1 hcut).2
  exact ⟨answer, outcome, hbegins.mono (.refl us) hmono, hleads.mono hmono, rfl⟩

end

end Generics
