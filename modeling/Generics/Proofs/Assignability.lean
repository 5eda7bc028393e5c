import Generics.Assignable
import Generics.Proofs.Promises
import Generics.Proofs.Supertyping
import Generics.Proofs.Watching

/-!
# What assignability answers

A target accepts what lies below it, and an application of a variant interface accepts what lies below
another application of the interface whose arguments are accepted in turn, the other way round where
the parameter is contravariant.  Such questions may lead back to themselves and are then taken to hold,
so acceptance is the greatest relation that satisfies these rules.  Whatever is answered with yes is
accepted, and what is accepted is answered with yes unless a guard objects.
-/

namespace Generics

/-! ## The rules -/

/-- An argument `S` may stand for `T` under the variance, where `R` relates types to what they accept:
both are the same, or the one that is accepted is a reference type. -/
inductive Compatible (c : Catalog) (base : Types) (R : Tree → Tree → Prop) :
    Variance → Tree → Tree → Prop
  | same (v : Variance) (T : Tree) : Compatible c base R v T T
  | covariant {T S : Tree} (hS : S.Meets c base .reference) (h : R T S) :
      Compatible c base R .covariant T S
  | contravariant {T S : Tree} (hT : T.Meets c base .reference) (h : R S T) :
      Compatible c base R .contravariant T S

/-- Why `T` may accept `S`, where `R` relates types to what they accept: it lies above it, or `T` is an
application of a variant interface, and an application with compatible arguments lies above `S`. -/
inductive AcceptsBy (c : Catalog) (base : Types) (R : Tree → Tree → Prop) : Tree → Tree → Prop
  | supertype {T S : Tree} (h : Supertype c base S T) : AcceptsBy c base R T S
  | variant {S : Tree} {d : DefId} {info : Definition} {Ts Ss : List Tree}
      (hinfo : c.definitions.get? d = some info) (hkind : info.kind = .interfaceType)
      (hvariant : info.isVariant) (h : Supertype c base S (.app d Ss)) (hlen : Ss.length = Ts.length)
      (hargs : ∀ (i : Nat) v A B, (info.params.map (·.variance))[i]? = some v → Ts[i]? = some A →
        Ss[i]? = some B → Compatible c base R v A B) :
      AcceptsBy c base R (.app d Ts) S

/-- `T` accepts `S`: some relation between them provides for all that it needs. -/
def Accepts (c : Catalog) (base : Types) (T S : Tree) : Prop :=
  ∃ R : Tree → Tree → Prop, (∀ T S, R T S → AcceptsBy c base R T S) ∧ R T S

/-- Why `T` may accept `S`, where `above` tells what lies above a type and `R` relates types to what they
accept: they are the same, `T` lies above `S`, or `T` is an application of a variant interface, and an
application with compatible arguments lies above `S`. -/
inductive AcceptsVia (c : Catalog) (base : Types) (above R : Tree → Tree → Prop) : Tree → Tree → Prop
  | same (T : Tree) : AcceptsVia c base above R T T
  | supertype {T S : Tree} (h : above S T) : AcceptsVia c base above R T S
  | variant {S : Tree} {d : DefId} {info : Definition} {Ts Ss : List Tree}
      (hinfo : c.definitions.get? d = some info) (hkind : info.kind = .interfaceType)
      (hvariant : info.isVariant) (h : above S (.app d Ss)) (hlen : Ss.length = Ts.length)
      (hargs : ∀ (i : Nat) v A B, (info.params.map (·.variance))[i]? = some v → Ts[i]? = some A →
        Ss[i]? = some B → Compatible c base R v A B) :
      AcceptsVia c base above R (.app d Ts) S

/-- Every pair that `R` relates has a reason among those pairs. -/
def Consistent (c : Catalog) (base : Types) (above R : Tree → Tree → Prop) : Prop :=
  ∀ T S, R T S → AcceptsVia c base above R T S

/-- The greatest consistent relation. -/
def AcceptsThrough (c : Catalog) (base : Types) (above : Tree → Tree → Prop) (T S : Tree) : Prop :=
  ∃ R, Consistent c base above R ∧ R T S

/-- `T` accepts `S` if everything that `P` relates is taken to be accepted. -/
def AcceptsUnder (c : Catalog) (base : Types) (above P : Tree → Tree → Prop) (T S : Tree) : Prop :=
  P T S ∨ ∃ R : Tree → Tree → Prop,
    (∀ T S, R T S → AcceptsVia c base above (fun T S => P T S ∨ R T S) T S) ∧ R T S

section

variable {c : Catalog} {base : Types} {above R R' P : Tree → Tree → Prop} {T S : Tree} {v : Variance}

theorem Compatible.mono (h : Compatible c base R v T S) (hR : ∀ T S, R T S → R' T S) :
    Compatible c base R' v T S := by
  cases h with
  | same => exact .same v T
  | covariant hS h => exact .covariant hS (hR _ _ h)
  | contravariant hT h => exact .contravariant hT (hR _ _ h)

theorem AcceptsVia.mono (h : AcceptsVia c base above R T S) (hR : ∀ T S, R T S → R' T S) :
    AcceptsVia c base above R' T S := by
  cases h with
  | same => exact .same T
  | supertype h => exact .supertype h
  | variant hinfo hkind hvariant h hlen hargs =>
    exact .variant hinfo hkind hvariant h hlen fun i v A B hv hA hB => (hargs i v A B hv hA hB).mono hR

/-- Where all supertypes count, a type lies above itself. -/
theorem acceptsVia_supertype_iff :
    AcceptsVia c base (Supertype c base) R T S ↔ AcceptsBy c base R T S := by
  constructor
  · intro h
    cases h with
    | same => exact .supertype .refl
    | supertype h => exact .supertype h
    | variant hinfo hkind hvariant h hlen hargs => exact .variant hinfo hkind hvariant h hlen hargs
  · intro h
    cases h with
    | supertype h => exact .supertype h
    | variant hinfo hkind hvariant h hlen hargs => exact .variant hinfo hkind hvariant h hlen hargs

theorem AcceptsThrough.acceptsVia (h : AcceptsThrough c base above T S) :
    AcceptsVia c base above (AcceptsThrough c base above) T S := by
  obtain ⟨R, hR, h⟩ := h
  exact (hR T S h).mono fun T S h => ⟨R, hR, h⟩

theorem acceptsThrough_supertype_iff :
    AcceptsThrough c base (Supertype c base) T S ↔ Accepts c base T S := by
  simp only [AcceptsThrough, Consistent, acceptsVia_supertype_iff, Accepts]

namespace Accepts

theorem acceptsBy (h : Accepts c base T S) : AcceptsBy c base (Accepts c base) T S := by
  refine acceptsVia_supertype_iff.1 ?_
  exact (acceptsThrough_supertype_iff.2 h).acceptsVia.mono fun _ _ => acceptsThrough_supertype_iff.1

theorem of_acceptsBy (h : AcceptsBy c base (Accepts c base) T S) : Accepts c base T S := by
  refine ⟨AcceptsBy c base (Accepts c base), fun _ _ h => ?_, h⟩
  rw [← acceptsVia_supertype_iff] at h ⊢
  exact h.mono fun _ _ => acceptsBy

theorem supertype (h : Supertype c base S T) : Accepts c base T S :=
  of_acceptsBy (.supertype h)

/-- Below an application that is accepted lies an application of the same definition. -/
theorem exists_app {d : DefId} {Ts : List Tree} (h : Accepts c base (.app d Ts) S) :
    ∃ Ss, Supertype c base S (.app d Ss) ∧ Ss.length = Ts.length := by
  cases h.acceptsBy with
  | supertype h => exact ⟨Ts, h, rfl⟩
  | variant _ _ _ h hlen => exact ⟨_, h, hlen⟩

end Accepts

namespace AcceptsUnder

/-- What is accepted if nothing else is taken for granted. -/
theorem acceptsThrough (h : AcceptsUnder c base above (fun _ _ => False) T S) :
    AcceptsThrough c base above T S := by
  obtain ⟨R, hR, h⟩ := h.resolve_left id
  exact ⟨R, fun T S h => (hR T S h).mono fun _ _ h => h.resolve_left id, h⟩

/-- A pair that was taken to be accepted while its own reasons were found is accepted. -/
theorem of_acceptsVia
    (h : AcceptsVia c base above (AcceptsUnder c base above fun T' S' => P T' S' ∨ T' = T ∧ S' = S)
      T S) :
    AcceptsUnder c base above P T S := by
  refine .inr ⟨fun U V => (U = T ∧ V = S) ∨ ∃ R : Tree → Tree → Prop, (∀ U V, R U V →
    AcceptsVia c base above (fun U V => (P U V ∨ U = T ∧ V = S) ∨ R U V) U V) ∧ R U V, ?_,
    .inl ⟨rfl, rfl⟩⟩
  rintro U V (⟨rfl, rfl⟩ | ⟨R, hR, hUV⟩)
  · refine h.mono fun U V hUV => ?_
    rcases hUV with (hP | hself) | hR
    · exact .inl hP
    · exact .inr (.inl hself)
    · exact .inr (.inr hR)
  · refine (hR U V hUV).mono fun U V hUV => ?_
    rcases hUV with (hP | hself) | hUV
    · exact .inl hP
    · exact .inr (.inl hself)
    · exact .inr (.inr ⟨R, hR, hUV⟩)

end AcceptsUnder

end

/-! ## Reading shapes -/

namespace Catalog

variable {c : Catalog} {ts us : Types} {t : TypeId} {T : Tree}

theorem variantInterface?_grow (hplain : c.overrides = []) (ht : ts.Unfolds t T)
    (hgrow : ts.Grows us) : (c.view us).variantInterface? t = (c.view ts).variantInterface? t := by
  obtain ⟨node, hnode, -⟩ := ht.exists_node
  rw [View.variantInterface?, View.variantInterface?, view_node? hplain, view_node? hplain, hnode,
    hgrow _ _ hnode]
  rfl

/-- A type is an application of a variant interface as its tree is. -/
theorem variantInterface?_eq_some_iff (hplain : c.overrides = []) {d : DefId}
    {variances : List Variance} {args : List TypeId} (ht : ts.Unfolds t T) :
    (c.view ts).variantInterface? t = some (d, variances, args) ↔
      ∃ info Ts, c.definitions.get? d = some info ∧ info.kind = .interfaceType ∧ info.isVariant ∧
        variances = info.params.map (·.variance) ∧ T = .app d Ts ∧
        List.Forall₂ ts.Unfolds args Ts := by
  rw [View.variantInterface?, view_node? hplain]
  cases ht with
  | named hnode => simp [hnode]
  | param hnode => simp [hnode]
  | @app _ e args' Ts hnode hargs =>
    simp only [hnode, view_definition?]
    constructor
    · intro h
      cases hinfo : c.definitions.get? e with
      | none => simp [hinfo] at h
      | some info =>
        simp only [hinfo, Option.ite_none_right_eq_some, Bool.and_eq_true, beq_iff_eq] at h
        obtain ⟨⟨hkind, hvariant⟩, h⟩ := h
        cases h
        exact ⟨info, Ts, hinfo, hkind, hvariant, rfl, rfl, hargs⟩
    · rintro ⟨info, _, hinfo, hkind, hvariant, rfl, ⟨⟩, hargs'⟩
      obtain rfl := Types.forall₂_unfolds_inj hargs hargs'
      simp [hinfo, hkind, hvariant]

theorem argsAs?_grow (hplain : c.overrides = []) (ht : ts.Unfolds t T) (hgrow : ts.Grows us)
    (d : DefId) (n : Nat) : (c.view us).argsAs? d n t = (c.view ts).argsAs? d n t := by
  obtain ⟨node, hnode, -⟩ := ht.exists_node
  rw [View.argsAs?, View.argsAs?, view_node? hplain, view_node? hplain, hnode, hgrow _ _ hnode]

theorem argsAs?_eq_some_iff (hplain : c.overrides = []) (ht : ts.Unfolds t T) {d : DefId} {n : Nat}
    {args : List TypeId} :
    (c.view ts).argsAs? d n t = some args ↔
      ∃ Ts, T = .app d Ts ∧ Ts.length = n ∧ List.Forall₂ ts.Unfolds args Ts := by
  rw [View.argsAs?, view_node? hplain]
  cases ht with
  | named hnode => simp [hnode]
  | param hnode => simp [hnode]
  | @app _ e args' Ts hnode hargs =>
    simp only [hnode, Option.ite_none_right_eq_some, Option.some.injEq, Tree.app.injEq]
    constructor
    · rintro ⟨⟨rfl, hlen⟩, rfl⟩
      exact ⟨Ts, ⟨rfl, rfl⟩, hargs.length_eq ▸ hlen, hargs⟩
    · rintro ⟨_, ⟨rfl, rfl⟩, hlen, hargs'⟩
      exact ⟨⟨rfl, hargs.length_eq.trans hlen⟩, Types.forall₂_unfolds_inj hargs hargs'⟩

end Catalog

/-! ## The answers -/

namespace Comparison

variable {c : Catalog} {base ts us : Types} {target source : TypeId} {T S : Tree}
  {above P : Tree → Tree → Prop} {counts : Bool} {g g' : Guard (TypeId × TypeId)} {n : Nat}

/-- `P` relates the types of every pair that is being visited. -/
def Granted (ts : Types) (P : Tree → Tree → Prop) (g : Guard (TypeId × TypeId)) : Prop :=
  ∀ pair ∈ g.visiting, ∃ T S, ts.Unfolds pair.1 T ∧ ts.Unfolds pair.2 S ∧ P T S

theorem Granted.grow (h : Granted ts P g) (hgrow : ts.Grows us) (hkeeps : g.Keeps g') :
    Granted us P g' := by
  intro pair hpair
  rw [hkeeps.visiting] at hpair
  obtain ⟨T, S, hT, hS, hP⟩ := h pair hpair
  exact ⟨T, S, hT.grow hgrow, hS.grow hgrow, hP⟩

/-- `above` tells what enumerations find: they find nothing else, and all of it unless they are cut
short and that counts. -/
def Surveys (c : Catalog) (base : Types) (above : Tree → Tree → Prop) (counts : Bool) : Prop :=
  ∀ (ts : Types) (t : TypeId) (T : Tree), base.Grows ts → ts.Unfolds t T →
    Engine.Settles (Engine.supertypes c t) ts fun found us cut =>
      (∀ u ∈ found.toList, ∃ U, us.Unfolds u U ∧ above T U) ∧
        ((counts && cut) = false → ∀ U, above T U → ∃ u ∈ found.toList, us.Unfolds u U)

/-- `accepts` tells which types accept which, under any guard that fits and whose pairs are taken for
granted. -/
def Compares (c : Catalog) (base : Types) (above : Tree → Tree → Prop) (counts : Bool) (n : Nat)
    (P : Tree → Tree → Prop) (accepts : TypeId → TypeId → Comparison Bool) : Prop :=
  ∀ (ts : Types) (target source : TypeId) (T S : Tree) (g : Guard (TypeId × TypeId)),
    base.Grows ts → ts.Unfolds target T → ts.Unfolds source S → g.Fits n → Granted ts P g →
      g.WatchesFor counts (accepts target source) ts fun r _ cut =>
        (r = true → AcceptsUnder c base above P T S) ∧
          (cut = false → AcceptsThrough c base above T S → r = true)

theorem watches_compatible (hc : c.Grounded base) (hbase : base.Grows ts)
    {accepts : TypeId → TypeId → Comparison Bool} (haccepts : Compares c base above counts n P accepts)
    (variance : Variance) (ht : ts.Unfolds target T) (hs : ts.Unfolds source S) (hfits : g.Fits n)
    (hgranted : Granted ts P g) :
    g.WatchesFor counts (compatible c accepts variance target source) ts fun r _ cut =>
      (r = true → Compatible c base (AcceptsUnder c base above P) variance T S) ∧
        (cut = false → Compatible c base (AcceptsThrough c base above) variance T S → r = true) := by
  have hc' := hc.grow hbase
  unfold compatible
  split
  · rename_i heq
    subst heq
    obtain rfl := ht.unique hs
    exact .pure fun _ => ⟨fun _ => .same variance T, fun _ _ => rfl⟩
  rename_i hne
  have hdistinct : T ≠ S := fun heq => hne (ht.inj (heq ▸ hs))
  cases variance with
  | invariant =>
    refine .pure fun _ => ⟨nofun, fun _ h => ?_⟩
    cases h
    exact absurd rfl hdistinct
  | covariant =>
    refine .query_bind c (fun vs hvs => Catalog.meets_grow hc' hs hvs .reference) ?_
    split
    · rename_i hreference
      have hS := (c.meets_iff hc hbase hs).1 hreference
      refine (haccepts ts target source T S g hbase ht hs hfits hgranted).mono ?_
      rintro r us cut - ⟨hsound, hcomplete⟩
      refine ⟨fun hr => .covariant hS (hsound hr), fun hcut h => ?_⟩
      cases h with
      | same => exact absurd rfl hdistinct
      | covariant _ h => exact hcomplete hcut h
    · rename_i hnot
      refine .pure fun _ => ⟨nofun, fun _ h => ?_⟩
      cases h with
      | same => exact absurd rfl hdistinct
      | covariant hS => exact absurd ((c.meets_iff hc hbase hs).2 hS) hnot
  | contravariant =>
    refine .query_bind c (fun vs hvs => Catalog.meets_grow hc' ht hvs .reference) ?_
    split
    · rename_i hreference
      have hT := (c.meets_iff hc hbase ht).1 hreference
      refine (haccepts ts source target S T g hbase hs ht hfits hgranted).mono ?_
      rintro r us cut - ⟨hsound, hcomplete⟩
      refine ⟨fun hr => .contravariant hT (hsound hr), fun hcut h => ?_⟩
      cases h with
      | same => exact absurd rfl hdistinct
      | contravariant _ h => exact hcomplete hcut h
    · rename_i hnot
      refine .pure fun _ => ⟨nofun, fun _ h => ?_⟩
      cases h with
      | same => exact absurd rfl hdistinct
      | contravariant hT => exact absurd ((c.meets_iff hc hbase ht).2 hT) hnot

/-- What is asked of the arguments at each position is asked of the members of the zipped lists. -/
theorem forall_mem_zip_iff {variances : List Variance} {targets sources : List TypeId}
    {Ts Ss : List Tree} {Q : Variance → Tree → Tree → Prop} (ht : List.Forall₂ ts.Unfolds targets Ts)
    (hs : List.Forall₂ ts.Unfolds sources Ss) :
    (∀ e ∈ variances.zip (targets.zip sources), ∀ A B, ts.Unfolds e.2.1 A → ts.Unfolds e.2.2 B →
        Q e.1 A B) ↔
      ∀ (i : Nat) v A B, variances[i]? = some v → Ts[i]? = some A → Ss[i]? = some B → Q v A B := by
  constructor
  · intro h i v A B hv hA hB
    obtain ⟨a, ha, haA⟩ := exists_getElem?_of_forall₂ ht.flip hA
    obtain ⟨b, hb, hbB⟩ := exists_getElem?_of_forall₂ hs.flip hB
    refine h ⟨v, a, b⟩ (List.mem_iff_getElem?.2 ⟨i, ?_⟩) A B haA hbB
    rw [List.getElem?_zip_eq_some, List.getElem?_zip_eq_some]
    exact ⟨hv, ha, hb⟩
  · rintro h ⟨v, a, b⟩ he A B haA hbB
    obtain ⟨i, he⟩ := List.mem_iff_getElem?.1 he
    rw [List.getElem?_zip_eq_some, List.getElem?_zip_eq_some] at he
    obtain ⟨A', hA, haA'⟩ := exists_getElem?_of_forall₂ ht he.2.1
    obtain ⟨B', hB, hbB'⟩ := exists_getElem?_of_forall₂ hs he.2.2
    obtain rfl := haA.unique haA'
    obtain rfl := hbB.unique hbB'
    exact h i v A B he.1 hA hB

/-- Arguments of two applications of one definition, compared under the variance of its parameters. -/
theorem watches_allM_compatible (hc : c.Grounded base) (hbase : base.Grows ts)
    {accepts : TypeId → TypeId → Comparison Bool} (haccepts : Compares c base above counts n P accepts)
    (variances : List Variance) {targets sources : List TypeId} {Ts Ss : List Tree}
    (ht : List.Forall₂ ts.Unfolds targets Ts) (hs : List.Forall₂ ts.Unfolds sources Ss)
    (hfits : g.Fits n) (hgranted : Granted ts P g) :
    g.WatchesFor counts ((variances.zip (targets.zip sources)).allM fun (variance, target, source) =>
      compatible c accepts variance target source) ts fun r _ cut =>
        (r = true → ∀ (i : Nat) v A B, variances[i]? = some v → Ts[i]? = some A → Ss[i]? = some B →
          Compatible c base (AcceptsUnder c base above P) v A B) ∧
        (cut = false → (∀ (i : Nat) v A B, variances[i]? = some v → Ts[i]? = some A →
          Ss[i]? = some B → Compatible c base (AcceptsThrough c base above) v A B) → r = true) := by
  simp only [← forall_mem_zip_iff ht hs]
  refine .allM fun e he us g' hus hkeeps => ?_
  obtain ⟨htarget, hsource⟩ := List.of_mem_zip (List.of_mem_zip he).2
  obtain ⟨A, -, hA⟩ := exists_of_mem_left ht htarget
  obtain ⟨B, -, hB⟩ := exists_of_mem_left hs hsource
  refine (watches_compatible hc (hbase.trans hus) haccepts e.1 (hA.grow hus) (hB.grow hus)
    (hfits.of_keeps hkeeps) (hgranted.grow hus hkeeps)).mono ?_
  rintro r vs cut - ⟨hsound, hcomplete⟩
  refine ⟨fun hr A' B' hA' hB' => ?_, fun hcut h => hcomplete hcut (h A B hA hB)⟩
  obtain rfl := hA'.unique hA
  obtain rfl := hB'.unique hB
  exact hsound hr

theorem watches_acceptsAbove (hc : c.Grounded base) (hsurveys : Surveys c base above counts)
    (hbase : base.Grows ts) {accepts : TypeId → TypeId → Comparison Bool} (haccepts : Compares c base above counts n P accepts)
    (ht : ts.Unfolds target T) (hs : ts.Unfolds source S) (hne : target ≠ source) (hfits : g.Fits n)
    (hgranted : Granted ts P g) :
    g.WatchesFor counts (acceptsAbove c accepts target source) ts fun r _ cut =>
      (r = true → AcceptsVia c base above (AcceptsUnder c base above P) T S) ∧
        (cut = false → AcceptsThrough c base above T S → r = true) := by
  refine .lift_bind (hsurveys ts source S hbase hs) fun found us cut hgrow hfound => ?_
  obtain ⟨hsound, hcomplete⟩ := hfound
  have ht' := ht.grow hgrow
  have hdistinct : T ≠ S := fun heq => hne (ht.inj (heq ▸ hs))
  split
  · rename_i hmem
    rw [InternTable.contains_iff_mem_toList] at hmem
    obtain ⟨T', hT', hST⟩ := hsound target hmem
    obtain rfl := hT'.unique ht'
    exact .pure fun _ => ⟨fun _ => .supertype hST, fun _ _ => rfl⟩
  rename_i hmem
  rw [InternTable.contains_iff_mem_toList] at hmem
  have hnot : (counts && cut) = false → ¬above S T := fun hcut hST => by
    obtain ⟨u, hu, hT⟩ := hcomplete hcut T hST
    exact hmem (hT.inj ht' ▸ hu)
  refine .query_bind c (fun vs hvs => c.variantInterface?_grow hc.plain ht' hvs) ?_
  cases hvariant : (c.view us).variantInterface? target with
  | none =>
    refine .pure fun _ => ⟨nofun, fun hcut h => ?_⟩
    cases h.acceptsVia with
    | same => exact absurd rfl hdistinct
    | supertype h => exact absurd h (hnot (Bool.or_eq_false_iff.1 hcut).1)
    | variant hinfo hkind hvaries =>
      obtain ⟨args, -, hargs⟩ := ht'.exists_app
      have hsome := (c.variantInterface?_eq_some_iff hc.plain ht').2
        ⟨_, _, hinfo, hkind, hvaries, rfl, rfl, hargs⟩
      exact absurd (hvariant.symm.trans hsome) nofun
  | some interface =>
    obtain ⟨d, variances, targets⟩ := interface
    obtain ⟨info, Ts, hinfo, hkind, hvaries, rfl, rfl, htargets⟩ :=
      (c.variantInterface?_eq_some_iff hc.plain ht').1 hvariant
    refine (Guard.WatchesFor.anyM
      (P := fun _ => AcceptsVia c base above (AcceptsUnder c base above P) (.app d Ts) S)
      (R := fun s => ∃ Ss, us.Unfolds s (.app d Ss) ∧ Ss.length = Ts.length ∧
        ∀ (i : Nat) v A B, (info.params.map (·.variance))[i]? = some v → Ts[i]? = some A →
          Ss[i]? = some B → Compatible c base (AcceptsThrough c base above) v A B)
      fun s hs' vs g' hvs hkeeps => ?_).mono ?_
    · obtain ⟨U, hU₀, hSU⟩ := hsound s hs'
      have hU := hU₀.grow hvs
      refine .query_bind c (fun ws hws => c.argsAs?_grow hc.plain hU hws _ _) ?_
      cases hargs : (c.view vs).argsAs? d targets.length s with
      | none =>
        refine .pure fun _ => ⟨nofun, fun _ ⟨Ss, hSs, hlen, _⟩ => ?_⟩
        obtain ⟨args, -, hargs'⟩ := (Types.Unfolds.grow hSs hvs).exists_app
        have hsome := (c.argsAs?_eq_some_iff hc.plain (Types.Unfolds.grow hSs hvs)).2
          ⟨Ss, rfl, hlen.trans htargets.length_eq.symm, hargs'⟩
        exact absurd (hargs.symm.trans hsome) nofun
      | some sources =>
        obtain ⟨Ss, rfl, hlen, hsources⟩ := (c.argsAs?_eq_some_iff hc.plain hU).1 hargs
        refine (watches_allM_compatible hc (hbase.trans (hgrow.trans hvs)) haccepts _
          (Types.forall₂_unfolds_grow htargets hvs) hsources (hfits.of_keeps hkeeps)
          (hgranted.grow (hgrow.trans hvs) hkeeps)).mono ?_
        rintro r ws cut' - ⟨hmay, hmust⟩
        refine ⟨fun hr => .variant hinfo hkind hvaries hSU (hlen.trans htargets.length_eq) (hmay hr),
          fun hcut h => hmust hcut ?_⟩
        obtain ⟨Ss', hSs', -, hargs'⟩ := h
        cases hU₀.unique hSs'
        exact hargs'
    · rintro r vs cut' - ⟨hmay, hmust⟩
      refine ⟨fun hr => ?_, fun hcut h => ?_⟩
      · obtain ⟨_, -, h⟩ := hmay hr
        exact h
      rw [Bool.or_eq_false_iff] at hcut
      cases h.acceptsVia with
      | same => exact absurd rfl hdistinct
      | supertype h => exact absurd h (hnot hcut.1)
      | @variant _ _ info' _ Ss hinfo' _ _ h hlen hargs =>
        obtain rfl := Option.some.inj (hinfo'.symm.trans hinfo)
        obtain ⟨s, hs', hSs⟩ := hcomplete hcut.1 _ h
        exact hmust hcut.2 ⟨s, hs', Ss, hSs, hlen, hargs⟩

/-- Visit a pair to answer a question about it: a pair that is being visited is taken for granted,
and where the guard has reached a limit the answer is no. -/
theorem watches_visit {pair : TypeId × TypeId} {m : Comparison Bool}
    {P : Bool → Types → Bool → Prop}
    (hm : ∀ g' : Guard (TypeId × TypeId), (∀ n, g.Fits (n + 1) → g'.Fits n) →
      g'.visiting = pair :: g.visiting → g'.WatchesFor counts m ts P)
    (hcycle : pair ∈ g.visiting → ∀ cut, P true ts cut) (hlimit : P false ts true) :
    g.WatchesFor counts (do
      match ← enter pair with
      | .entered =>
        let accepted ← m
        leave pair
        pure accepted
      | .cycle => pure true
      | .tooDeep | .tooLong => pure false) ts P := by
  rw [Guard.WatchesFor, StateT.run_bind]
  change Engine.Settles (pure (g.enter pair) >>= _) ts _
  rw [pure_bind]
  rcases henter : g.enter pair with ⟨e, g'⟩
  by_cases he : e = .entered
  · subst he
    obtain ⟨-, hvisiting, -, hfits⟩ := Guard.of_enter_eq_entered henter
    exact (hm g' hfits hvisiting).leave_entered henter
  · obtain ⟨hkeeps, hcases⟩ := Guard.of_enter_ne_entered henter he
    rcases hcases with ⟨rfl, hmem⟩ | ⟨hne, hexceeded⟩
    · exact .pure ⟨hkeeps, hcycle hmem _⟩
    · have hpure : Engine.Settles (pure (false, g')) ts fun r us cut =>
          g.Keeps r.2 ∧ P r.1 us (counts && cut || r.2.exceeded) := .pure ⟨hkeeps, by rwa [hexceeded, Bool.or_true]⟩
      cases e with
      | entered => exact absurd rfl he
      | cycle => exact absurd rfl hne
      | tooDeep => exact hpure
      | tooLong => exact hpure

/-- An answer is right if the pairs that are being visited are taken for granted. -/
theorem compares_acceptsTo (hc : c.Grounded base) (hsurveys : Surveys c base above counts) :
    Compares c base above counts n P (acceptsTo c n) := by
  induction n generalizing P with
  | zero => exact fun _ _ _ _ _ _ _ _ _ hfits _ => (Guard.not_fits_zero hfits).elim
  | succ n ih =>
    intro ts target source T S g hbase ht hs hfits hgranted
    rw [acceptsTo]
    split
    · rename_i heq
      subst heq
      obtain rfl := ht.unique hs
      refine .pure fun _ => ⟨fun _ => .inr ⟨Eq, ?_, rfl⟩, fun _ _ => rfl⟩
      rintro T _ rfl
      exact .same T
    · rename_i hne
      refine watches_visit (fun g' hfits' hvisiting => ?_) (fun hmem _ => ?_) ⟨nofun, nofun⟩
      · refine (watches_acceptsAbove hc hsurveys hbase ih ht hs hne (hfits' n hfits) ?_).mono
          fun r _ _ _ ⟨hsound, hcomplete⟩ => ⟨fun hr => .of_acceptsVia (hsound hr), hcomplete⟩
        rw [Granted, hvisiting, List.forall_mem_cons]
        refine ⟨⟨T, S, ht, hs, .inr ⟨rfl, rfl⟩⟩, fun pair hpair => ?_⟩
        obtain ⟨T', S', hT', hS', hP⟩ := hgranted pair hpair
        exact ⟨T', S', hT', hS', .inl hP⟩
      · obtain ⟨T', S', hT', hS', hP⟩ := hgranted _ hmem
        obtain rfl := ht.unique hT'
        obtain rfl := hs.unique hS'
        exact ⟨fun _ => .inl hP, fun _ _ => rfl⟩

/-- A question that no other question has led to. -/
theorem watches_acceptsThrough (hc : c.Grounded base) (hsurveys : Surveys c base above counts)
    (hbase : base.Grows ts) (ht : ts.Unfolds target T) (hs : ts.Unfolds source S)
    (hkeeps : Guard.Keeps { limits := .assignability } g) :
    g.WatchesFor counts (accepts c target source) ts fun r _ cut =>
      (r = true → AcceptsThrough c base above T S) ∧
        (cut = false → AcceptsThrough c base above T S → r = true) := by
  refine (compares_acceptsTo (P := fun _ _ => False) hc hsurveys ts target source T S g hbase ht hs
    ((Guard.fits_start _).of_keeps hkeeps) ?_).mono
      fun r us cut _ h => ⟨fun hr => (h.1 hr).acceptsThrough, h.2⟩
  intro pair hpair
  rw [hkeeps.visiting] at hpair
  cases hpair

/-- Enumerations find all supertypes unless a guard cuts them short. -/
theorem surveys_supertype (hc : c.Grounded base) : Surveys c base (Supertype c base) true :=
  fun _ _ _ hbase ht => (Engine.settles_supertypes hc hbase ht).mono
    fun _ _ _ _ habove => ⟨habove.sound, habove.complete⟩

/-- A question that no other question has led to. -/
theorem watches_accepts (hc : c.Grounded base) (hbase : base.Grows ts) (ht : ts.Unfolds target T)
    (hs : ts.Unfolds source S) (hkeeps : Guard.Keeps { limits := .assignability } g) :
    g.Watches (accepts c target source) ts fun r _ cut =>
      (r = true → Accepts c base T S) ∧ (cut = false → Accepts c base T S → r = true) := by
  simp only [← acceptsThrough_supertype_iff]
  exact watches_acceptsThrough hc (surveys_supertype hc) hbase ht hs hkeeps

end Comparison

/-- A target accepts what it is said to accept, and unless a guard objects it is said to accept what it
does. -/
theorem Engine.settles_isAssignable {c : Catalog} {base ts : Types} {target source : TypeId}
    {T S : Tree} (hc : c.Grounded base) (hbase : base.Grows ts) (ht : ts.Unfolds target T)
    (hs : ts.Unfolds source S) :
    Settles (isAssignable c target source) ts fun r _ cut =>
      (r = true → Accepts c base T S) ∧ (cut = false → Accepts c base T S → r = true) :=
  Guard.Watches.retire _ (Comparison.watches_accepts hc hbase ht hs (.refl _))

end Generics
