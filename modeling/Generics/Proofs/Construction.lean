import Generics.Construct
import Generics.Proofs.Assignability
import Generics.Proofs.Declarations

/-!
# What construction checks

Construction succeeds only with arguments that meet the demands of their parameters and that their
constraints, specialised to all arguments, accept; and with such arguments it does succeed, unless a
guard objects.
-/

namespace Generics

variable {c : Catalog} {base ts us : Types} {d : DefId} {info : Definition} {args : List TypeId}
  {Ts : List Tree}

/-- The arguments meet the special constraints of their parameters. -/
def MeetSpecials (c : Catalog) (ts : Types) (info : Definition) (args : List TypeId) : Prop :=
  ∀ (i : Nat) (decl : ParamDecl) (a : TypeId), info.params[i]? = some decl → args[i]? = some a →
    ((c.view ts).missing a decl.special).isEmpty

/-- Special constraints that are met stay met as a store grows. -/
theorem MeetSpecials.grow (hc : c.Grounded ts) (hargs : List.Forall₂ ts.Unfolds args Ts)
    (h : MeetSpecials c ts info args) (hgrow : ts.Grows us) : MeetSpecials c us info args := by
  intro i decl a hdecl ha
  obtain ⟨A, -, haA⟩ := exists_getElem?_of_forall₂ hargs ha
  rw [Catalog.missing_grow hc haA hgrow]
  exact h i decl a hdecl ha

/-- Each constraint, specialised to all arguments, is related to its argument. -/
def MeetConstraints (base : Types) (d : DefId) (info : Definition) (Ts : List Tree)
    (R : Tree → Tree → Prop) : Prop :=
  ∀ (i : Nat) (decl : ParamDecl) (T : Tree) (k : TypeId) (K : Tree), info.params[i]? = some decl →
    Ts[i]? = some T → k ∈ decl.constraints → base.Unfolds k K → R (K.subst (.assign d Ts)) T

theorem mem_requirements_iff {r : Requirement} :
    r ∈ info.requirements d args ↔ ∃ i decl a, info.params[i]? = some decl ∧ args[i]? = some a ∧
      (r = .special ⟨d, i⟩ a decl.special ∨ ∃ k ∈ decl.constraints, r = .constraint ⟨d, i⟩ a k) := by
  simp only [Definition.requirements, ParamDecl.requirements, List.mem_flatMap, List.mem_cons,
    List.mem_map, Prod.exists, List.mem_zipIdx_iff_getElem?, List.getElem?_zip_eq_some]
  constructor
  · rintro ⟨decl, a, i, ⟨hdecl, ha⟩, hr⟩
    exact ⟨i, decl, a, hdecl, ha, hr.imp id fun ⟨k, hk, h⟩ => ⟨k, hk, h.symm⟩⟩
  · rintro ⟨i, decl, a, hdecl, ha, hr⟩
    exact ⟨decl, a, i, ⟨hdecl, ha⟩, hr.imp id fun ⟨k, hk, h⟩ => ⟨k, hk, h.symm⟩⟩

namespace Comparison

/-- What a requirement asks for: that special constraints are met and that the specialised
constraint is related to the argument. -/
def Holds (c : Catalog) (base ts : Types) (f : Param → Tree) (R : Tree → Tree → Prop) :
    Requirement → Prop
  | .special _ argument demanded => ((c.view ts).missing argument demanded).isEmpty
  | .constraint _ argument k =>
    ∀ K T, base.Unfolds k K → ts.Unfolds argument T → R (K.subst f) T

/-- The types of a requirement unfold. -/
def Known (base ts : Types) : Requirement → Prop
  | .special _ argument _ => ∃ T, ts.Unfolds argument T
  | .constraint _ argument k => (∃ K, base.Unfolds k K) ∧ ∃ T, ts.Unfolds argument T

theorem known_of_mem_requirements {r : Requirement} (hc : c.Grounded base)
    (hinfo : c.definitions.get? d = some info) (hargs : List.Forall₂ ts.Unfolds args Ts)
    (hr : r ∈ info.requirements d args) : Known base ts r := by
  obtain ⟨i, decl, a, hdecl, ha, hr⟩ := mem_requirements_iff.1 hr
  obtain ⟨T, -, haT⟩ := exists_getElem?_of_forall₂ hargs ha
  rcases hr with rfl | ⟨k, hk, rfl⟩
  · exact ⟨T, haT⟩
  · have hdecl' : c.definitions.param? ⟨d, i⟩ = some decl := by
      rw [Definitions.param?, hinfo, Option.bind_some, hdecl]
    exact ⟨hc.constraints _ decl hdecl' k hk, T, haT⟩

theorem watches_violation? (hc : c.Grounded base) (hbase : base.Grows ts) (hgrow : ts.Grows us)
    {σ : Substitution} {f : Param → Tree} {g : Guard (TypeId × TypeId)} {r : Requirement}
    (hσ : σ.Unfolds ts f) (hkeeps : Guard.Keeps { limits := .assignability } g)
    (hr : Known base ts r) :
    g.Watches (violation? c σ r) us fun o _ cut =>
      (o = none → Holds c base ts f (Accepts c base) r) ∧
        (cut = false → Holds c base ts f (Accepts c base) r → o = none) := by
  cases r with
  | special p argument demanded =>
    obtain ⟨T, hT⟩ := hr
    refine .query_bind c
      (fun vs hvs => Catalog.missing_grow (hc.grow (hbase.trans hgrow)) (hT.grow hgrow) hvs demanded) ?_
    rw [Catalog.missing_grow (hc.grow hbase) hT hgrow]
    refine .pure fun _ => ⟨fun ho => ?_, fun _ hholds => if_pos hholds⟩
    by_contra hmissing
    exact absurd ((if_neg hmissing).symm.trans ho) nofun
  | constraint p argument k =>
    obtain ⟨⟨K, hK⟩, T, hT⟩ := hr
    have hbase' := hbase.trans hgrow
    refine .lift_bind (Engine.settles_instantiate hc.plain (hK.grow hbase') (hσ.grow hgrow)) ?_
    rintro u vs _ hvs ⟨hu, rfl, -⟩
    refine (watches_accepts hc (hbase'.trans hvs) hu (hT.grow (hgrow.trans hvs)) hkeeps).bind ?_
    rintro accepted ws cut g' - - ⟨hsound, hcomplete⟩
    refine .pure fun cut' => ⟨fun ho K' T' hK' hT' => ?_, fun hcut hholds => ?_⟩
    · obtain rfl := hK'.unique hK
      obtain rfl := hT'.unique hT
      refine hsound ?_
      by_contra haccepted
      exact absurd ((if_neg haccepted).symm.trans ho) nofun
    · simp only [Bool.or_eq_false_iff] at hcut
      exact if_pos (hcomplete hcut.2.1 (hholds K T hK hT))

end Comparison

theorem holds_requirements_iff (hargs : List.Forall₂ ts.Unfolds args Ts) {R : Tree → Tree → Prop} :
    (∀ r ∈ info.requirements d args, Comparison.Holds c base ts (.assign d Ts) R r) ↔
      MeetSpecials c ts info args ∧ MeetConstraints base d info Ts R := by
  simp only [mem_requirements_iff]
  constructor
  · intro h
    refine ⟨fun i decl a hdecl ha => h _ ⟨i, decl, a, hdecl, ha, .inl rfl⟩, ?_⟩
    intro i decl T k K hdecl hT hk hK
    obtain ⟨a, ha, haT⟩ := exists_getElem?_of_forall₂ hargs.flip hT
    exact h _ ⟨i, decl, a, hdecl, ha, .inr ⟨k, hk, rfl⟩⟩ K T hK haT
  · rintro ⟨hspecials, hconstraints⟩ r ⟨i, decl, a, hdecl, ha, rfl | ⟨k, hk, rfl⟩⟩
    · exact hspecials i decl a hdecl ha
    · intro K T hK haT
      obtain ⟨T', hT', haT'⟩ := exists_getElem?_of_forall₂ hargs ha
      exact hconstraints i decl T k K hdecl (haT.unique haT' ▸ hT') hk hK

/-- What is known of arguments that a definition takes. -/
structure Takes (c : Catalog) (base ts : Types) (d : DefId) (args : List TypeId) (Ts : List Tree)
    (R : Tree → Tree → Prop) (info : Definition) : Prop where
  known : c.definitions.get? d = some info
  arity : info.arity = Ts.length
  specials : MeetSpecials c ts info args
  constraints : MeetConstraints base d info Ts R

/-- Construction refuses arguments that a constraint does not accept, and it takes all others that meet
the demands of their parameters unless it is cut short. -/
theorem Engine.settles_construct (hc : c.Grounded base) (hbase : base.Grows ts)
    (hargs : List.Forall₂ ts.Unfolds args Ts) :
    Settles (construct c d args) ts fun r us cut =>
      (∀ t, r = .ok t → us.Unfolds t (.apply d Ts) ∧
        ∃ info, Takes c base ts d args Ts (Accepts c base) info) ∧
      (cut = false → (∃ info, Takes c base ts d args Ts (Accepts c base) info) →
        ∃ t, r = .ok t) := by
  unfold construct
  cases hinfo : c.definitions.get? d with
  | none =>
    refine .pure ⟨by simp, ?_⟩
    rintro - ⟨info, htakes⟩
    exact absurd (hinfo.symm.trans htakes.known) (by simp)
  | some info =>
    have hinfo' : ∀ {info'}, Takes c base ts d args Ts (Accepts c base) info' → info' = info := fun htakes =>
      Option.some.inj (htakes.known.symm.trans hinfo)
    simp only
    split
    · rename_i harity
      refine .pure ⟨by simp, ?_⟩
      rintro - ⟨info', htakes⟩
      obtain rfl := hinfo' htakes
      exact absurd (htakes.arity.trans hargs.length_eq.symm) harity
    · rename_i harity
      rw [not_not, hargs.length_eq] at harity
      have hσ := Substitution.unfolds_ofArgs d hargs
      refine (Guard.Watches.retire _ (.findSomeM?
        (P := Comparison.Holds c base ts (.assign d Ts) (Accepts c base))
        (R := Comparison.Holds c base ts (.assign d Ts) (Accepts c base))
        fun r hr us g hus hkeeps => Comparison.watches_violation? hc hbase hus hσ hkeeps
          (Comparison.known_of_mem_requirements hc hinfo hargs hr))).bind ?_
      rw [holds_requirements_iff hargs]
      rintro first us cut hgrow ⟨hsound, hcomplete⟩
      cases first with
      | some violation =>
        refine .pure ⟨by simp, ?_⟩
        rintro hcut ⟨info', htakes⟩
        obtain rfl := hinfo' htakes
        exact absurd (hcomplete (Bool.or_eq_false_iff.1 hcut).1
          ⟨htakes.specials, htakes.constraints⟩) (by simp)
      | none =>
        obtain ⟨hspecials, hconstraints⟩ := hsound rfl
        have hu := Types.unfolds_intern_app d (Types.forall₂_unfolds_grow hargs hgrow)
        refine (Settles.intern (P := fun u vs cut => u = (us.intern (.app d args)).1 ∧
          vs = (us.intern (.app d args)).2 ∧ cut = false) ⟨rfl, rfl, rfl⟩).bind ?_
        rintro _ _ _ - ⟨rfl, rfl, rfl⟩
        refine .report_bind c _ (.pure ⟨fun t ht => ?_, fun _ _ => ⟨_, rfl⟩⟩)
        cases ht
        exact ⟨hu, info, hinfo, harity, hspecials, hconstraints⟩

/-- On every larger store construction takes arguments that are these trees, unless it is cut short. -/
def Constructible (c : Catalog) (ts : Types) (d : DefId) (Ts : List Tree) : Prop :=
  ∀ us args, ts.Grows us → List.Forall₂ us.Unfolds args Ts →
    Engine.Settles (Engine.construct c d args) us fun r _ cut => cut = false → ∃ t, r = .ok t

theorem Constructible.grow (h : Constructible c ts d Ts) (hgrow : ts.Grows us) :
    Constructible c us d Ts := fun vs args hvs => h vs args (hgrow.trans hvs)

/-- What has been constructed once is constructible. -/
theorem constructible_of_lasts {t : TypeId} (hargs : List.Forall₂ ts.Unfolds args Ts)
    (h : Engine.Lasts (Engine.construct c d args) us (.ok t)) (hgrow : us.Grows ts) :
    Constructible c ts d Ts := by
  intro vs args' hvs hargs'
  obtain rfl := Types.forall₂_unfolds_inj hargs' (Types.forall₂_unfolds_grow hargs hvs)
  exact .of_lasts h (hgrow.trans hvs) fun _ _ => ⟨t, rfl⟩

/-- What all constraints accept is constructible. -/
theorem constructible_of_takes (hc : c.Grounded base) (hbase : base.Grows ts)
    (h : ∀ us args, ts.Grows us → List.Forall₂ us.Unfolds args Ts →
      Takes c base us d args Ts (Accepts c base) info) :
    Constructible c ts d Ts := by
  intro us args hus hargs
  refine (Engine.settles_construct hc (hbase.trans hus) hargs).mono ?_
  exact fun r vs cut _ hr hcut => hr.2 hcut ⟨info, h us args hus hargs⟩

end Generics
