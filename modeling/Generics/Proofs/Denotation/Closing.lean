import Mathlib.Data.List.Forall2
import Generics.Proofs.Closing
import Generics.Proofs.Denotation.Unifying
import Generics.Proofs.KeptPromises

/-!
# What closes an implementation

Construction and assignability ask for properties of trees, and the free parameters of an implementation
are bound by unifying trees.  So what the closed type may be is given by trees as well: by the arguments
of the implementation, by what was found for the parameters of its definition, and by the abstraction.
-/

namespace Generics

variable {c : Catalog} {base ts us : Types} {d : DefId} {free : List Param} {A : Tree}
  {Fs Xs : List Tree} {E E' : Bindings}

/-! ## Trees that a definition takes -/

/-- The definition `d` is `info`, and it takes the arguments `Xs`. -/
structure Catalog.Admits (c : Catalog) (base : Types) (d : DefId) (Xs : List Tree) (info : Definition) :
    Prop where
  known : c.definitions.get? d = some info
  arity : info.arity = Xs.length
  specials : ∀ (i : Nat) decl X, info.params[i]? = some decl → Xs[i]? = some X →
    ∀ m ∈ decl.special.demands, X.Meets c base m
  constraints : MeetConstraints base d info Xs (Accepts c base)

theorem takes_iff_admits {args : List TypeId} {info : Definition} (hc : c.Grounded base)
    (hbase : base.Grows ts) (hargs : List.Forall₂ ts.Unfolds args Xs) :
    Takes c base ts d args Xs (Accepts c base) info ↔ c.Admits base d Xs info := by
  refine ⟨fun h => ⟨h.known, h.arity, fun i decl X hdecl hX m hm => ?_, h.constraints⟩,
    fun h => ⟨h.known, h.arity, fun i decl a hdecl ha => ?_, h.constraints⟩⟩
  · obtain ⟨a, ha, haX⟩ := exists_getElem?_of_forall₂ hargs.flip hX
    exact (c.meets_iff hc hbase haX).1 (View.isEmpty_missing_iff.1 (h.specials i decl a hdecl ha) m hm)
  · obtain ⟨X, hX, haX⟩ := exists_getElem?_of_forall₂ hargs ha
    exact View.isEmpty_missing_iff.2 fun m hm =>
      (c.meets_iff hc hbase haX).2 (h.specials i decl X hdecl hX m hm)

/-! ## Open arguments -/

namespace Bindings

/-- The arguments that mention free parameters, with what is bound to the parameters they are passed
for. -/
def openPairs (E : Bindings) (d : DefId) (free : List Param) (Fs : List Tree) : List (Tree × Tree) :=
  Fs.zipIdx.filterMap fun (F, i) =>
    if (∃ p ∈ free, p ∈ F.params) ∧ ⟨d, i⟩ ∈ E.domain then some (F, E.image ⟨d, i⟩) else none

/-- What is bound to a parameter of `d` is what `h` makes of the argument passed for it, and where
nothing is bound, that mentions no free parameter. -/
def Fits (E : Bindings) (d : DefId) (free : List Param) (Fs : List Tree) (h : Param → Tree) : Prop :=
  ∀ (i : Nat) (F : Tree), Fs[i]? = some F →
    (⟨d, i⟩ ∈ E.domain → E.image ⟨d, i⟩ = F.subst h) ∧
      (⟨d, i⟩ ∉ E.domain → ∀ p ∈ free, p ∉ (F.subst h).params)

theorem mem_openPairs {pair : Tree × Tree} : pair ∈ E.openPairs d free Fs ↔ ∃ i : Nat,
    Fs[i]? = some pair.1 ∧ (∃ p ∈ free, p ∈ pair.1.params) ∧ ⟨d, i⟩ ∈ E.domain ∧
      E.image ⟨d, i⟩ = pair.2 := by
  simp only [openPairs, List.mem_filterMap, Prod.exists, List.mem_zipIdx_iff_getElem?]
  constructor
  · rintro ⟨F, i, hF, hpair⟩
    split at hpair
    · rename_i hopen
      cases hpair
      exact ⟨i, hF, hopen.1, hopen.2, rfl⟩
    · cases hpair
  · rintro ⟨i, hF, hopen, hi, himage⟩
    exact ⟨pair.1, i, hF, by rw [if_pos ⟨hopen, hi⟩, himage]⟩

end Bindings

namespace Closing

variable {k : Closing} {found : Substitution}

theorem openPairs_slots {v : View} : k.openPairs v (k.slots v found) =
    k.args.zipIdx.filterMap fun (a, i) =>
      if v.mentionsAny a k.free then (found.get? ⟨k.definition, i⟩).map (a, ·) else none := by
  rw [openPairs, slots, List.mapIdx_eq_zipIdx_map, List.filterMap_filter, List.filterMap_map]
  refine List.filterMap_congr fun pair _ => ?_
  simp only [Function.comp]
  split
  · rename_i hmentions
    unfold View.candidateFor
    cases found.get? ⟨k.definition, pair.2⟩ with
    | some t => rfl
    | none => rw [if_pos hmentions]
  · rfl

/-- The open arguments of an implementation are those of its tree. -/
theorem forall₂_openPairs (hplain : c.overrides = []) (hargs : List.Forall₂ ts.Unfolds k.args Fs)
    (hfound : found.Binds ts E) :
    List.Forall₂ (fun pair trees => ts.Unfolds pair.1 trees.1 ∧ ts.Unfolds pair.2 trees.2)
      (k.openPairs (c.view ts) (k.slots (c.view ts) found)) (E.openPairs k.definition k.free Fs) := by
  have hzip : List.Forall₂ (fun (a : TypeId × Nat) (F : Tree × Nat) =>
      ts.Unfolds a.1 F.1 ∧ a.2 = F.2) k.args.zipIdx Fs.zipIdx := by
    refine forall₂_of_getElem? (by simp [hargs.length_eq]) fun i a F ha hF => ?_
    rw [List.getElem?_zipIdx, Option.map_eq_some_iff] at ha hF
    obtain ⟨a, ha, rfl⟩ := ha
    obtain ⟨F, hF, rfl⟩ := hF
    obtain ⟨F', hF', haF⟩ := exists_getElem?_of_forall₂ hargs ha
    exact ⟨Option.some.inj (hF'.symm.trans hF) ▸ haF, rfl⟩
  rw [openPairs_slots]
  refine List.rel_filterMap ?_ hzip
  rintro ⟨a, i⟩ ⟨F, _⟩ ⟨haF, rfl⟩
  have hmentions : (c.view ts).mentionsAny a k.free ↔ ∃ p ∈ k.free, p ∈ F.params :=
    c.mentionsAny_iff hplain haF
  have hnone : Option.Rel (fun (pair : TypeId × TypeId) (trees : Tree × Tree) =>
      ts.Unfolds pair.1 trees.1 ∧ ts.Unfolds pair.2 trees.2) none none := .none
  by_cases hopen : ∃ p ∈ k.free, p ∈ F.params
  · simp only [if_pos (hmentions.2 hopen)]
    cases ht : found.get? ⟨k.definition, i⟩ with
    | some t =>
      rw [if_pos ⟨hopen, hfound.mem_domain ht⟩]
      exact .some ⟨haF, (hfound.unfolds _).1 t ht⟩
    | none =>
      rw [if_neg fun h => ?_]
      · exact hnone
      · have hcontains := hfound.contains_iff.2 h.2
        rw [Substitution.contains, ht] at hcontains
        cases hcontains
  · simp only [if_neg (hmentions.not.2 hopen)]
    rw [if_neg fun h => hopen h.1]
    exact hnone

theorem consistent_iff_fits {h : Param → Tree} (hfound : found.Binds ts E) :
    k.Consistent ts Fs found h ↔ E.Fits k.definition k.free Fs h := by
  refine forall_congr' fun i => forall_congr' fun F => imp_congr_right fun hF => and_congr ?_ ?_
  · constructor
    · intro h hi
      obtain ⟨t, ht⟩ := Option.isSome_iff_exists.1 (hfound.contains_iff.2 hi)
      exact hfound.image_eq ht (h t ht)
    · intro h t ht
      exact h (hfound.mem_domain ht) ▸ (hfound.unfolds _).1 t ht
  · rw [← hfound.contains_iff, Substitution.contains, Option.not_isSome_iff_eq_none]

end Closing

/-! ## Filling the open arguments -/

/-- Unify the open arguments with what `E` binds. -/
def Hierarchy.unifyOpen (L : Hierarchy) (d : DefId) (free : List Param) (Fs : List Tree) (E : Bindings) :
    Outcomes Bindings :=
  L.unify free (.assign d Fs) ((E.openPairs d free Fs).map (·.1)) ((E.openPairs d free Fs).map (·.2))

/-- `E'` binds the free parameters, and so that all arguments fit. -/
structure Bindings.Fills (d : DefId) (free : List Param) (Fs : List Tree) (E E' : Bindings) : Prop where
  domain : ∀ p, p ∈ E'.domain ↔ p ∈ free
  fits : E.Fits d free Fs E'.image

/-- Bind the free parameters so that all arguments fit. -/
def Hierarchy.fill (L : Hierarchy) (d : DefId) (free : List Param) (Fs : List Tree) (E : Bindings) :
    Outcomes Bindings := do
  let E' ← L.unifyOpen d free Fs E
  .given (E.Fills d free Fs E') E'

namespace Closing

variable {k : Closing} {found σ : Substitution}

theorem settles_bindFree_include (hc : c.Grounded base) (hbase : base.Grows ts)
    (hargs : List.Forall₂ ts.Unfolds k.args Fs) (hfound : found.Binds ts E) :
    Engine.Settles (k.bindFree c (k.slots (c.view ts) found)) ts fun r us cut => cut = false →
      ((c.hierarchy base).unifyOpen k.definition k.free Fs E).Include (·.Binds us ·) r := by
  have hpairs := forall₂_openPairs hc.plain hargs hfound
  unfold bindFree
  refine .query_bind c (fun vs hvs => openPairs_grow hc.plain hargs hvs) ?_
  refine Guard.Watches.retire _ (Unifier.watches_unify_include
    (u := { free := k.free, closure := .ofArgs k.definition k.args }) hc hbase
    (Substitution.unfolds_ofArgs k.definition hargs) ?_ ?_ rfl)
  · rw [List.forall₂_map_left_iff, List.forall₂_map_right_iff]
    exact hpairs.imp fun _ _ h => h.1
  · rw [List.forall₂_map_left_iff, List.forall₂_map_right_iff]
    exact hpairs.imp fun _ _ h => h.2

/-- Filling succeeds exactly if all arguments fit. -/
theorem settles_fill_fits (hplain : c.overrides = []) (hargs : List.Forall₂ ts.Unfolds k.args Fs)
    (hfound : found.Binds ts E) (hgrow : ts.Grows us) (hσ : σ.Binds us E')
    (hbound : E'.domain ⊆ k.free)
    (hsolves : ∀ (i : Nat) F t T, Fs[i]? = some F → (∃ p ∈ k.free, p ∈ F.params) →
      found.get? ⟨k.definition, i⟩ = some t → ts.Unfolds t T → σ.Solves us k.free F T) :
    Engine.Settles (do
        let slots ← (k.slots (c.view ts) found).mapM (k.fillSlot c σ)
        Engine.query c (k.closedArgs · slots)) us fun r vs cut =>
      (∀ xs, r = .ok xs → List.Forall₂ vs.Unfolds xs (Fs.map (Tree.subst E'.image))) ∧
      cut = false ∧ (E.Fits k.definition k.free Fs E'.image ↔ ∃ xs, r = .ok xs) := by
  have hrigid := Bindings.rigid_image fun p hp => hbound hp
  refine (settles_fill hplain hargs hgrow hσ.unfolds hrigid fun i F t hF hmentions ht => ?_).mono ?_
  · have hX := (hfound.unfolds _).1 t ht
    rw [(hsolves i F t _ hF hmentions ht hX).subst_eq _ hσ.unfolds.agrees hrigid]
    exact hX.grow hgrow
  · rintro r vs cut hvs ⟨hfilled, hcut, hfill⟩
    refine ⟨fun xs hxs => (hfilled xs hxs).1, hcut, fun hfits => ?_, ?_⟩
    · exact hfill ((consistent_iff_fits hfound).2 hfits)
    · rintro ⟨xs, hxs⟩
      exact (consistent_iff_fits (hfound.grow (hgrow.trans hvs))).1 (hfilled xs hxs).2

/-- The arguments of the closed type are those that fill the open ones. -/
theorem settles_argsFor_include (hc : c.Grounded base) (hbase : base.Grows ts)
    (hargs : List.Forall₂ ts.Unfolds k.args Fs) (hfound : found.Binds ts E) :
    Engine.Settles (k.argsFor c found).run ts fun r us cut =>
      (∀ xs, r = .ok xs → ∃ Xs, List.Forall₂ us.Unfolds xs Xs) ∧
      (cut = false → ((c.hierarchy base).fill k.definition k.free Fs E).Include
        (fun xs E' => List.Forall₂ us.Unfolds xs (Fs.map (Tree.subst E'.image))) r) := by
  unfold argsFor
  refine settles_lift_bind (.query_bind c (fun vs hvs => slots_grow hc.plain hargs hvs) ?_)
  refine settles_lift_bind (((settles_bindFree hc hbase hargs ⟨_, hfound.unfolds⟩).and
    (settles_bindFree_include hc hbase hargs hfound)).bind ?_)
  rintro r us cut hgrow ⟨⟨hsound, -⟩, hincluded⟩
  cases r with
  | error e =>
    exact .pure ⟨nofun, fun hcut => Outcomes.bind_none (hincluded (Bool.or_eq_false_iff.1 hcut).1)⟩
  | ok σ =>
    obtain ⟨hext, hsolves, -⟩ := hsound σ rfl
    obtain ⟨h, hh⟩ := Substitution.exists_unfolds_of_extends (Substitution.unfolds_empty us) hext
    obtain ⟨E₁, rfl, hσ⟩ := hh.exists_binds
    have hbound : E₁.domain ⊆ k.free := fun p hp =>
      Substitution.of_contains_of_extends_empty hext (hσ.contains_iff.2 hp)
    -- what becomes of these bindings is an outcome
    have hfill : cut = false → ∀ o, Outcomes.given (E.Fills k.definition k.free Fs E₁) E₁ o →
        (c.hierarchy base).fill k.definition k.free Fs E o := fun hcut o ho => by
      obtain ⟨E', hE', hbinds⟩ := hincluded hcut
      obtain rfl := hσ.unique hbinds
      exact Outcomes.bind_some hE' ho
    rw [ExceptT.run_bind, ExceptT.run_mk, pure_bind]
    cases hcount : k.checkCount σ with
    | error e =>
      refine .pure ⟨nofun, fun hcut => hfill (Bool.or_eq_false_iff.1 hcut).1 none fun hfills => ?_⟩
      have hok := checkCount_eq_ok_iff.2 fun p hp => hσ.contains_iff.2 ((hfills.domain p).2 hp)
      cases hcount.symm.trans hok
    | ok _ =>
      have hdomain : ∀ p, p ∈ E₁.domain ↔ p ∈ k.free := fun p =>
        ⟨@hbound p, fun hp => hσ.contains_iff.1 (checkCount_eq_ok_iff.1 hcount p hp)⟩
      refine settles_lift_bind
        ((settles_fill_fits hc.plain hargs hfound hgrow hσ hbound hsolves).mono ?_)
      rintro r vs cut' hvs ⟨hxs, rfl, hfits⟩
      cases r with
      | error e =>
        refine ⟨nofun, fun hcut => hfill (Bool.or_eq_false_iff.1 hcut).1 none fun hfills => ?_⟩
        obtain ⟨_, hok⟩ := hfits.1 hfills.fits
        cases hok
      | ok xs =>
        refine ⟨fun _ heq => Except.ok.inj heq ▸ ⟨_, hxs xs rfl⟩, fun hcut => ⟨E₁, ?_, hxs xs rfl⟩⟩
        exact hfill (Bool.or_eq_false_iff.1 hcut).1 _ ⟨⟨hdomain, hfits.2 ⟨xs, rfl⟩⟩, rfl⟩

/-! ## The closed type -/

end Closing

/-- The definition `d` takes the arguments `Xs`, and `A` accepts the application. -/
structure Catalog.Approves (c : Catalog) (base : Types) (d : DefId) (A : Tree) (Xs : List Tree) :
    Prop where
  admitted : ∃ info, c.Admits base d Xs info
  accepted : Accepts c base A (.apply d Xs)

/-- Close the application of `d` to `Fs`, which is to serve `A`, when `E` was found. -/
def Catalog.close (c : Catalog) (base : Types) (L : Hierarchy) (d : DefId) (free : List Param)
    (Fs : List Tree) (A : Tree) (E : Bindings) : Outcomes Tree := do
  let E' ← L.fill d free Fs E
  .given (c.Approves base d A (Fs.map (Tree.subst E'.image))) (.apply d (Fs.map (Tree.subst E'.image)))

namespace Closing

variable {k : Closing} {found : Substitution}

/-- The closed type is accepted exactly if its definition takes the arguments and the abstraction accepts
it. -/
theorem settles_checkClosed_include {abstraction : TypeId} {xs : List TypeId} (hc : c.Grounded base)
    (hbase : base.Grows ts) (hA : ts.Unfolds abstraction A) (hxs : List.Forall₂ ts.Unfolds xs Xs) :
    Engine.Settles (k.checkClosed c abstraction xs).run ts fun r us cut => cut = false →
      (Outcomes.given (c.Approves base k.definition A Xs) (.apply k.definition Xs)).Include us.Unfolds
        r := by
  refine (settles_checkClosed hc hbase hA hxs).mono ?_
  rintro r us cut hgrow ⟨hsound, hcomplete⟩ hcut
  cases r with
  | error e =>
    rintro ⟨⟨info, hadmits⟩, haccepts⟩
    have hconstructible : Constructible c ts k.definition Xs :=
      constructible_of_takes hc hbase fun vs args hvs hargs =>
        (takes_iff_admits hc (hbase.trans hvs) hargs).2 hadmits
    obtain ⟨_, hok⟩ := hcomplete hcut hconstructible haccepts
    cases hok
  | ok closed =>
    obtain ⟨hclosed, hchecks⟩ := hsound closed rfl
    have hbase' := hbase.trans hgrow
    have hxs' := Types.forall₂_unfolds_grow hxs hgrow
    obtain ⟨_, hconstructed, -⟩ :=
      (Engine.settles_construct hc hbase' hxs').exists_of_lasts hchecks.constructed
    obtain ⟨-, info, htakes⟩ := hconstructed closed rfl
    obtain ⟨_, haccepts, -⟩ :=
      (Engine.settles_isAssignable hc hbase' (hA.grow hgrow) hclosed).exists_of_lasts hchecks.accepted
    have happroves : c.Approves base k.definition A Xs :=
      ⟨⟨info, (takes_iff_admits hc hbase' hxs').1 htakes⟩, haccepts rfl⟩
    exact ⟨_, ⟨happroves, rfl⟩, hclosed⟩

/-- What closes the implementation is one of the outcomes on trees. -/
theorem settles_close_include {abstraction : TypeId} (hc : c.Grounded base) (hbase : base.Grows ts)
    (hA : ts.Unfolds abstraction A) (hargs : List.Forall₂ ts.Unfolds k.args Fs)
    (hfound : found.Binds ts E) :
    Engine.Settles (k.close c abstraction found).run ts fun r us cut => cut = false →
      (c.close base (c.hierarchy base) k.definition k.free Fs A E).Include us.Unfolds r := by
  unfold close
  rw [ExceptT.run_bind]
  refine (settles_argsFor_include hc hbase hargs hfound).bind ?_
  rintro (e | xs) us cut hgrow ⟨hargsFor, hincluded⟩
  · exact .pure fun hcut => Outcomes.bind_none (hincluded (Bool.or_eq_false_iff.1 hcut).1)
  · obtain ⟨Xs, hXs⟩ := hargsFor xs rfl
    refine (settles_checkClosed_include hc (hbase.trans hgrow) (hA.grow hgrow) hXs).mono ?_
    intro r vs cut' hvs hchecks hcut
    rw [Bool.or_eq_false_iff] at hcut
    obtain ⟨E', hE', hXs'⟩ := hincluded hcut.1
    obtain rfl := eq_of_forall₂ hXs hXs' fun _ _ _ _ _ h h' => h.unique h'
    exact (hchecks hcut.2).mono (fun o ho => Outcomes.bind_some hE' ho) fun _ _ => id

end Closing

end Generics
