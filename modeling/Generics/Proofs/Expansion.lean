import Generics.Proofs.Unification

/-!
# Expanding constraints to the end

Expansion goes through the constraints of every parameter that it binds, depth first: a parameter
that comes up while it is being expanded is skipped, because its own turn is not over.  So what each
inference keeps, the whole expansion keeps, and what each inference achieves for its constraint is
achieved in the end for every constraint of every bound parameter.
-/

namespace Generics

namespace Substitution

variable {ts : Types} {S : Param → Prop} {σ τ : Substitution} {p : Param}

/-- What has been appended is what is bound since. -/
theorem mem_drop_domain_iff (h : σ.Extends ts S τ) :
    p ∈ τ.domain.drop σ.size ↔ τ.contains p ∧ ¬σ.contains p := by
  obtain ⟨more, hmore, hall⟩ := h
  obtain ⟨hdomain, hdrop⟩ := domain_of_entries hmore
  rw [contains_iff_mem_domain, contains_iff_mem_domain, hdrop, hdomain, List.mem_append]
  refine ⟨fun hp => ⟨.inr hp, ?_⟩, fun hp => hp.1.resolve_left hp.2⟩
  obtain ⟨e, he, rfl⟩ := List.mem_map.1 hp
  rw [← contains_iff_mem_domain]
  exact (hall e he).2.1

end Substitution

namespace Unifier

/-- What is to be shown of an expansion: what it keeps, what it achieves for a constraint of a
parameter, and whether it succeeds. -/
structure Aim where
  keeps : Types → Substitution → Prop
  done : Types → Substitution → Param → TypeId → Prop
  succeeds : Prop

variable {α : Type} {c : Catalog} {u : Unknowns} {base ts us : Types} {f : Param → Tree} {aim : Aim}
  {g g' : Guard Param} {σ τ : Substitution} {p : Param} {n : Nat}
  {r : Except UnifyError Substitution} {cut : Bool} {passed passed' : Types → Substitution → Prop}

/-- Every constraint of `p` is done. -/
def Aim.Finished (aim : Aim) (c : Catalog) (ts : Types) (σ : Substitution) (p : Param) : Prop :=
  ∀ decl, c.definitions.param? p = some decl → ∀ k ∈ decl.constraints, aim.done ts σ p k

/-- The outcome of an expansion from `σ`: more bindings, the aim reached for whatever is bound since,
and `passed`; and no error, if the aim is to succeed and no guard objects. -/
def Aim.Reached (aim : Aim) (c : Catalog) (free : List Param) (σ : Substitution)
    (passed : Types → Substitution → Prop) (r : Except UnifyError Substitution) (us : Types)
    (cut : Bool) : Prop :=
  (∀ τ, r = .ok τ → aim.keeps us τ ∧ σ.Extends us (· ∈ free) τ ∧
    (∀ q, τ.contains q → ¬σ.contains q → aim.Finished c us τ q) ∧ passed us τ) ∧
  (cut = false → aim.succeeds → ∃ τ, r = .ok τ)

/-- One inference serves the aim. -/
structure Aim.Served (aim : Aim) (c : Catalog) (u : Unknowns) (base : Types) (f : Param → Tree) :
    Prop where
  free : ∀ {ts σ}, aim.keeps ts σ → ∀ p, σ.contains p → p ∈ u.free
  grow : ∀ {ts us σ}, aim.keeps ts σ → ts.Grows us → aim.keeps us σ
  mono : ∀ {ts us σ τ p k}, ts.Grows us → σ.Extends us (· ∈ u.free) τ → aim.done ts σ p k →
    aim.done us τ p k
  /-- A constraint without free parameters is done. -/
  closed : ∀ {ts σ p k K}, aim.keeps ts σ → σ.contains p → base.Unfolds k K →
    (¬∃ q ∈ u.free, q ∈ (K.subst f).params) → aim.done ts σ p k
  infer : ∀ {ts σ p decl k K k' t} {g : Guard Param}, base.Grows ts → aim.keeps ts σ →
    σ.get? p = some t → c.definitions.param? p = some decl → k ∈ decl.constraints →
    base.Unfolds k K → ts.Unfolds k' (K.subst f) → (∃ q ∈ u.free, q ∈ (K.subst f).params) →
    g.Watches (infer c u p k' t σ).run ts fun r us cut =>
      (∀ τ, r = .ok τ → aim.keeps us τ ∧ σ.Extends us (· ∈ u.free) τ ∧ aim.done us τ p k) ∧
        (cut = false → aim.succeeds → ∃ τ, r = .ok τ)

theorem Aim.Served.finished (haim : aim.Served c u base f) (hgrow : ts.Grows us)
    (hext : σ.Extends us (· ∈ u.free) τ) (h : aim.Finished c ts σ p) : aim.Finished c us τ p :=
  fun decl hdecl k hk => haim.mono hgrow hext (h decl hdecl k hk)

theorem Aim.reached_self (h : aim.keeps us σ) (hpassed : passed us σ) :
    aim.Reached c u.free σ passed (.ok σ) us cut := by
  refine ⟨fun τ hτ => ?_, fun _ _ => ⟨σ, rfl⟩⟩
  cases hτ
  exact ⟨h, .refl .., fun q hq hnew => absurd hq hnew, hpassed⟩

theorem Aim.Reached.imp (h : aim.Reached c u.free σ passed r us cut)
    (himp : ∀ τ, σ.Extends us (· ∈ u.free) τ → passed us τ → passed' us τ) :
    aim.Reached c u.free σ passed' r us cut :=
  ⟨fun τ hτ => (h.1 τ hτ).imp id fun h => ⟨h.1, h.2.1, himp τ h.1 h.2.2⟩, h.2⟩

/-- An outcome from bindings that were themselves an outcome. -/
theorem Aim.Reached.trans {cut' : Bool} (haim : aim.Served c u base f)
    (h : aim.Reached c u.free σ passed (.ok τ) us cut) {vs : Types} (hgrow : us.Grows vs)
    (h' : aim.Reached c u.free τ passed' r vs cut')
    (hpassed : ∀ υ, τ.Extends vs (· ∈ u.free) υ → passed us τ → passed vs υ) :
    aim.Reached c u.free σ (fun ts υ => passed ts υ ∧ passed' ts υ) r vs (cut || cut') := by
  obtain ⟨-, hext, hnew, hτ⟩ := h.1 τ rfl
  refine ⟨fun υ hυ => ?_, fun hcut hsucceeds => h'.2 (Bool.or_eq_false_iff.1 hcut).2 hsucceeds⟩
  obtain ⟨hkeeps, hext', hnew', hυ'⟩ := h'.1 υ hυ
  refine ⟨hkeeps, (hext.grow hgrow).trans hext', fun q hq hσ => ?_, hpassed υ hext' hτ, hυ'⟩
  by_cases hqτ : τ.contains q
  · exact haim.finished hgrow hext' (hnew q hqτ hσ)
  · exact hnew' q hq hqτ

/-- An inference has bound `υ`, and all that it has bound has been expanded in turn. -/
theorem Aim.Reached.of_inferred {υ : Substitution} {k : TypeId} {vs : Types} {cut' : Bool}
    (haim : aim.Served c u base f) (hext : σ.Extends us (· ∈ u.free) υ) (hdone : aim.done us υ p k)
    (hgrow : us.Grows vs) (hcut : cut' = false → cut = false)
    (h : aim.Reached c u.free υ (fun ts τ => ∀ q ∈ υ.domain.drop σ.size, aim.Finished c ts τ q) r vs
      cut) :
    aim.Reached c u.free σ (aim.done · · p k) r vs cut' := by
  refine ⟨fun τ hτ => ?_, fun hcut' hsucceeds => h.2 (hcut hcut') hsucceeds⟩
  obtain ⟨hkeeps, hext', hnew, hall⟩ := h.1 τ hτ
  refine ⟨hkeeps, (hext.grow hgrow).trans hext', fun q hq hqσ => ?_, haim.mono hgrow hext' hdone⟩
  by_cases hqυ : υ.contains q
  · exact hall q ((Substitution.mem_drop_domain_iff hext).2 ⟨hqυ, hqσ⟩)
  · exact hnew q hq hqυ

/-- Expanding one member after another. -/
theorem watches_foldlM_reached (haim : aim.Served c u base f)
    {step : Substitution → α → Unifier Substitution} {l : List α}
    (passed : α → Types → Substitution → Prop) (hpassed : ∀ a ∈ l, ∀ {us vs τ υ}, us.Grows vs →
      τ.Extends vs (· ∈ u.free) υ → passed a us τ → passed a vs υ)
    (hσ : aim.keeps ts σ)
    (hstep : ∀ a ∈ l, ∀ τ us g', ts.Grows us → g.Keeps g' → aim.keeps us τ →
      σ.Extends us (· ∈ u.free) τ →
      g'.Watches (step τ a).run us (aim.Reached c u.free τ (passed a))) :
    g.Watches (l.foldlM step σ).run ts
      (aim.Reached c u.free σ fun us τ => ∀ a ∈ l, passed a us τ) := by
  induction l generalizing σ ts g with
  | nil =>
    rw [List.foldlM_nil]
    exact .pure fun _ => Aim.reached_self hσ (by simp)
  | cons a l ih =>
    rw [List.foldlM_cons]
    refine watches_bind
      (hstep a (List.mem_cons_self ..) σ ts g (.refl ts) (.refl g) hσ (.refl ..)) ?_ ?_
    · intro τ us cut g' hgrow hkeeps hreached
      obtain ⟨hτ, hext, -⟩ := hreached.1 τ rfl
      refine (ih (fun a ha => hpassed a (List.mem_cons_of_mem _ ha)) hτ fun a ha υ vs g'' hvs
        hkeeps' hυ hext' => hstep a (List.mem_cons_of_mem _ ha) υ vs g'' (hgrow.trans hvs)
          (hkeeps.trans hkeeps') hυ ((hext.grow hvs).trans hext')).mono ?_
      intro r vs cut' hvs hrest
      refine (hreached.trans haim hvs hrest fun υ hext' =>
        hpassed a (List.mem_cons_self ..) hvs hext').imp fun υ _ hυ => ?_
      exact List.forall_mem_cons.2 hυ
    · rintro e us cut cut' ⟨-, hsucceeds⟩
      refine ⟨nofun, fun hcut haim => ?_⟩
      obtain ⟨_, heq⟩ := hsucceeds (Bool.or_eq_false_iff.1 hcut).1 haim
      cases heq

theorem watches_expandEach_reached (hc : c.Grounded base) (hbase : base.Grows ts)
    (hclosure : u.closure.Unfolds ts f) (haim : aim.Served c u base f)
    {expand : Substitution → Param → Unifier Substitution} (hσ : aim.keeps ts σ)
    (hexpand : ∀ q τ us g', ts.Grows us → g.Keeps g' → aim.keeps us τ →
      σ.Extends us (· ∈ u.free) τ → τ.contains q → ¬σ.contains q →
      g'.Watches (expand τ q).run us (aim.Reached c u.free τ (aim.Finished c · · q))) :
    g.Watches (expandEach c u expand σ p).run ts
      (aim.Reached c u.free σ fun us τ => σ.contains p → aim.Finished c us τ p) := by
  unfold expandEach
  refine watches_query_bind (fun vs hvs => rfl) ?_
  rw [Catalog.view_param?]
  cases ht : σ.get? p with
  | none =>
    refine .pure fun _ => Aim.reached_self hσ fun hp => ?_
    rw [Substitution.contains, ht] at hp
    cases hp
  | some t =>
    cases hdecl : c.definitions.param? p with
    | none =>
      refine .pure fun _ => Aim.reached_self hσ fun _ decl hdecl' => ?_
      exact absurd (hdecl.symm.trans hdecl') (by simp)
    | some decl =>
      refine (watches_foldlM_reached haim (fun k us τ => aim.done us τ p k)
        (fun k _ _ _ _ _ hvs hext hdone => haim.mono hvs hext hdone) hσ ?_).mono
        fun r us cut _ hreached => hreached.imp fun τ _ hall _ decl' hdecl' k hk => ?_
      · intro k hk τ us g' hgrow hkeeps hτ hext
        obtain ⟨K, hK⟩ := hc.constraints p decl hdecl k hk
        have hbase' := hbase.trans hgrow
        refine watches_lift_bind
          (Engine.settles_instantiate hc.plain (hK.grow hbase') (hclosure.grow hgrow)) ?_
        rintro k' vs _ hvs ⟨hk', rfl, -⟩
        refine watches_query_bind (fun ws hws => c.mentionsAny_grow hc.plain hk' hws) ?_
        have hτ' := haim.grow hτ hvs
        split
        · rename_i hmentions
          rw [c.mentionsAny_iff hc.plain hk'] at hmentions
          refine watches_bind (haim.infer (hbase'.trans hvs) hτ' (Substitution.get?_of_extends hext ht)
            hdecl hk hK hk' hmentions) ?_ ?_
          · rintro υ ws cut g'' hws hkeeps' ⟨hinfer, -⟩
            obtain ⟨hυ, hext', hdone⟩ := hinfer υ rfl
            -- what was inferred just now is expanded in turn
            refine (watches_foldlM_reached haim (fun q us τ => aim.Finished c us τ q)
              (fun q _ _ _ _ _ hvs hext hq => haim.finished hvs hext hq)
              hυ fun q hq υ' xs g₃ hxs hkeeps'' hυ' hext'' => ?_).mono ?_
            · obtain ⟨hqυ, hqτ⟩ := (Substitution.mem_drop_domain_iff hext').1 hq
              refine hexpand q υ' xs g₃ (hgrow.trans (hvs.trans (hws.trans hxs)))
                (hkeeps.trans (hkeeps'.trans hkeeps'')) hυ' ?_
                (Substitution.contains_of_extends hext'' hqυ)
                fun hqσ => hqτ (Substitution.contains_of_extends hext hqσ)
              exact (hext.grow (hvs.trans (hws.trans hxs))).trans ((hext'.grow hxs).trans hext'')
            · intro r xs cut' hxs hrest
              refine hrest.of_inferred haim hext' hdone hxs fun hcut => ?_
              simp only [Bool.or_eq_false_iff] at hcut
              exact hcut.2.2
          · rintro e ws cut cut' ⟨-, hinfer⟩
            refine ⟨by simp, fun hcut hsucceeds => ?_⟩
            simp only [Bool.or_eq_false_iff] at hcut
            obtain ⟨_, heq⟩ := hinfer hcut.2.1 hsucceeds
            cases heq
        · rename_i hnone
          have hpτ := Substitution.contains_of_get? (Substitution.get?_of_extends hext ht)
          refine .pure fun _ => Aim.reached_self hτ' (haim.closed hτ' hpτ hK fun hmentions => hnone ?_)
          rwa [c.mentionsAny_iff hc.plain hk']
      · obtain rfl := Option.some.inj (hdecl.symm.trans hdecl')
        exact hall k hk

/-- Expanding a bound parameter, unless it is being expanded already.  Every level of the expansion
visits one more of the free parameters, so there is fuel for all of them. -/
theorem watches_expandTo_reached (hc : c.Grounded base) (hbase : base.Grows ts)
    (hclosure : u.closure.Unfolds ts f) (haim : aim.Served c u base f) (hσ : aim.keeps ts σ)
    (hp : σ.contains p) (hvisiting : ∀ q ∈ g.visiting, σ.contains q)
    (hn : View.unsearched u.free g.visiting < n) :
    g.Watches (expandTo c u n σ p).run ts
      (aim.Reached c u.free σ fun us τ => p ∉ g.visiting → aim.Finished c us τ p) := by
  induction n generalizing ts σ p g with
  | zero => exact absurd hn (Nat.not_lt_zero _)
  | succ n ih =>
    rw [expandTo, Guard.Watches, ExceptT.run_bind, StateT.run_bind]
    change Engine.Settles (pure (Except.ok (g.enter p).1, (g.enter p).2) >>= _) ts _
    rw [pure_bind]
    rcases henter : g.enter p with ⟨e, g'⟩
    by_cases he : e = .entered
    · subst he
      obtain ⟨hnew, hvisiting', -, -⟩ := Guard.of_enter_eq_entered henter
      refine Guard.Watches.leave_entered henter (Guard.Watches.mono
        (watches_expandEach_reached hc hbase hclosure haim hσ ?_) fun r us cut _ hreached =>
          hreached.imp fun τ _ h _ => h hp)
      intro q τ us g'' hus hkeeps hτ hext hqτ hqσ
      have hcontains : ∀ {q}, σ.contains q → τ.contains q := Substitution.contains_of_extends hext
      have hvisits : ∀ q ∈ g''.visiting, σ.contains q := by
        rw [hkeeps.visiting, hvisiting', List.forall_mem_cons]
        exact ⟨hp, hvisiting⟩
      refine (ih (hbase.trans hus) (hclosure.grow hus) hτ hqτ (fun q hq => hcontains (hvisits q hq))
        ?_).mono fun r vs cut _ hreached => hreached.imp fun υ _ h => h fun hq => hqσ (hvisits q hq)
      have hlt := View.unsearched_cons_lt (haim.free hσ p hp) hnew
      rw [hkeeps.visiting, hvisiting']
      omega
    · obtain ⟨hkeeps, hcases⟩ := Guard.of_enter_ne_entered henter he
      rcases hcases with ⟨rfl, hmem⟩ | ⟨hne, hexceeded⟩
      · exact .pure ⟨hkeeps, Aim.reached_self hσ fun hnot => absurd hmem hnot⟩
      · have hthrow : Engine.Settles (pure (Except.error .limitExceeded, g')) ts fun r us cut =>
            g.Keeps r.2 ∧ aim.Reached c u.free σ (fun us τ => p ∉ g.visiting → aim.Finished c us τ p)
              r.1 us (cut || r.2.exceeded) :=
          .pure ⟨hkeeps, by simp, fun hcut => by simp [hexceeded] at hcut⟩
        cases e with
        | entered => exact absurd rfl he
        | cycle => exact absurd rfl hne
        | tooDeep => exact hthrow
        | tooLong => exact hthrow

/-- Unification keeps what matching gives and inferences keep, and in the end every constraint of
every bound parameter is done. -/
theorem watches_unify_reached {as bs : List TypeId} {As Bs : List Tree} (hc : c.Grounded base)
    (hbase : base.Grows ts) (hclosure : u.closure.Unfolds ts f) (haim : aim.Served c u base f)
    (has : List.Forall₂ ts.Unfolds as As) (hbs : List.Forall₂ ts.Unfolds bs Bs)
    (hvisiting : g.visiting = [])
    (hmatched : ∀ matched, (c.view ts).matchAll u.free .empty as bs = .ok matched →
      as.length = bs.length → aim.keeps ts matched)
    (hsucceeds : aim.succeeds → as.length = bs.length ∧
      ∃ matched, (c.view ts).matchAll u.free .empty as bs = .ok matched) :
    g.Watches (unify c u as bs).run ts fun r us cut =>
      (∀ τ, r = .ok τ → aim.keeps us τ ∧ τ.SolvesAll us u.free As Bs ∧
        ∀ q, τ.contains q → aim.Finished c us τ q) ∧
      (cut = false → aim.succeeds → ∃ τ, r = .ok τ) := by
  unfold unify
  split
  · rename_i hlen
    exact .pure fun _ => ⟨nofun, fun _ h => absurd (hsucceeds h).1 hlen⟩
  rename_i hlen
  rw [not_not] at hlen
  refine watches_query_bind (fun vs hvs => c.matchAll_grow hc.plain has hbs hvs .empty) ?_
  cases hmatch : (c.view ts).matchAll u.free .empty as bs with
  | error e =>
    refine .pure fun _ => ⟨nofun, fun _ h => ?_⟩
    obtain ⟨-, matched, heq⟩ := hsucceeds h
    exact absurd (hmatch.symm.trans heq) nofun
  | ok matched =>
    have hkept := hmatched matched hmatch hlen
    obtain ⟨hext, hsolves⟩ := Catalog.of_matchAll_eq_ok hc.plain has hbs hlen.symm hmatch
    have hunfolds := Substitution.exists_unfolds_of_extends (Substitution.unfolds_empty ts) hext
    refine watches_bind (watches_foldlM_reached haim (fun p us τ => aim.Finished c us τ p)
      (fun p _ _ _ _ _ hvs hext hp => haim.finished hvs hext hp) hkept ?_) ?_ ?_
    · intro p hp τ us g' hgrow hkeeps hτ hext'
      have hempty : g'.visiting = [] := hkeeps.visiting.trans hvisiting
      refine (watches_expandTo_reached hc (hbase.trans hgrow) (hclosure.grow hgrow) haim hτ
        (Substitution.contains_of_extends hext' ((matched.contains_iff_mem_domain p).2 hp))
        (by simp [hempty]) ?_).mono fun r vs cut _ hreached => hreached.imp fun υ _ h => ?_
      · exact Nat.lt_succ_of_le (List.length_filter_le ..)
      · exact h (by simp [hempty])
    · intro τ us cut g' hgrow hkeeps hreached
      obtain ⟨hτ, hext', hnew, hall⟩ := hreached.1 τ rfl
      refine watches_lift_bind (Engine.Settles.report (P := fun _ vs cut => vs = us ∧ cut = false)
        c _ ⟨rfl, rfl⟩) ?_
      rintro _ _ _ - ⟨rfl, rfl⟩
      refine .pure fun cut' => ⟨fun υ hυ => ?_, fun _ _ => ⟨τ, rfl⟩⟩
      cases hυ
      refine ⟨hτ, (hsolves.grow hunfolds hgrow).of_extends hext', fun q hq => ?_⟩
      by_cases hqm : matched.contains q
      · exact hall q ((matched.contains_iff_mem_domain q).1 hqm)
      · exact hnew q hq hqm
    · rintro e us cut cut' ⟨-, hfails⟩
      refine ⟨nofun, fun hcut h => ?_⟩
      obtain ⟨_, heq⟩ := hfails (Bool.or_eq_false_iff.1 hcut).1 h
      cases heq

/-! ## Counterparts of constraints -/

variable {B : Tree} {as bs : List TypeId} {As Bs : List Tree}

/-- Every constraint of `p` that mentions free parameters has a counterpart above `B`. -/
def Answered (c : Catalog) (base : Types) (free : List Param) (f : Param → Tree) (p : Param)
    (B : Tree) : Prop :=
  ∀ decl k K, c.definitions.param? p = some decl → k ∈ decl.constraints → base.Unfolds k K →
    (∃ q ∈ free, q ∈ (K.subst f).params) → Answerable c base (K.subst f) B

/-- Bind parameters only to types above which their constraints have counterparts. -/
def answeredAim (c : Catalog) (base : Types) (free : List Param) (f : Param → Tree) : Aim where
  keeps ts σ := (∀ p, σ.contains p → p ∈ free) ∧ ∃ h, σ.Unfolds ts h
  done ts σ p k := ∃ t B, σ.get? p = some t ∧ ts.Unfolds t B ∧ ∀ K, base.Unfolds k K →
    (∃ q ∈ free, q ∈ (K.subst f).params) → Answerable c base (K.subst f) B
  succeeds := False

theorem answeredAim_served (hc : c.Grounded base) :
    (answeredAim c base u.free f).Served c u base f where
  free hσ := hσ.1
  grow hσ hgrow := ⟨hσ.1, hσ.2.imp fun _ hh => hh.grow hgrow⟩
  mono := by
    rintro ts us σ τ p k hgrow hext ⟨t, B, ht, hB, habove⟩
    exact ⟨t, B, Substitution.get?_of_extends hext ht, hB.grow hgrow, habove⟩
  closed := by
    rintro ts σ p k K ⟨-, h, hh⟩ hp hK hclosed
    obtain ⟨t, ht⟩ := Option.isSome_iff_exists.1 hp
    refine ⟨t, h p, ht, (hh p).1 t ht, fun K' hK' hmentions => absurd hmentions ?_⟩
    rwa [hK'.unique hK]
  infer := by
    rintro ts σ p decl k K k' t g hbase ⟨hfree, h, hh⟩ ht - - hK hk' -
    have htB := (hh p).1 t ht
    have hkept : ∀ {us τ}, ts.Grows us → σ.Extends us (· ∈ u.free) τ → Answerable c base (K.subst f) (h p) →
        (answeredAim c base u.free f).keeps us τ ∧ σ.Extends us (· ∈ u.free) τ ∧
          (answeredAim c base u.free f).done us τ p k := by
      intro us τ hgrow hext habove
      refine ⟨⟨fun q hq => ?_, exists_unfolds_of_extends ⟨h, hh⟩ hgrow hext⟩, hext, t, h p,
        Substitution.get?_of_extends hext ht, htB.grow hgrow, fun K' hK' _ => hK'.unique hK ▸ habove⟩
      exact (Substitution.contains_cases_of_extends hext hq).elim (hfree q) id
    refine (watches_infer hc hbase hk' htB).mono ?_
    rintro r us cut hgrow ⟨hanswers, habove⟩
    exact ⟨fun τ hτ => hkept hgrow (hanswers.1 τ hτ) (habove τ hτ), fun _ h => h.elim⟩

/-- Every type that unification binds has counterparts for the constraints of its parameter. -/
theorem watches_unify_answered (hc : c.Grounded base) (hbase : base.Grows ts)
    (hclosure : u.closure.Unfolds ts f) (has : List.Forall₂ ts.Unfolds as As)
    (hbs : List.Forall₂ ts.Unfolds bs Bs) (hvisiting : g.visiting = []) :
    g.Watches (unify c u as bs).run ts fun r us _ => ∀ τ, r = .ok τ → ∀ p t B,
      τ.get? p = some t → us.Unfolds t B → Answered c base u.free f p B := by
  refine (watches_unify_reached hc hbase hclosure (answeredAim_served hc) has hbs hvisiting ?_
    False.elim).mono ?_
  · intro matched hmatch hlen
    obtain ⟨hext, -⟩ := Catalog.of_matchAll_eq_ok hc.plain has hbs hlen.symm hmatch
    exact ⟨fun p hp => (Substitution.of_contains_of_extends_empty hext hp).1,
      Substitution.exists_unfolds_of_extends (Substitution.unfolds_empty ts) hext⟩
  · rintro r us cut - ⟨hsound, -⟩ τ hτ p t B ht hB decl k K hdecl hk hK hmentions
    obtain ⟨-, -, hfinished⟩ := hsound τ hτ
    obtain ⟨t', B', ht', hB', habove⟩ :=
      hfinished p (Substitution.contains_of_get? ht) decl hdecl k hk
    obtain rfl := Option.some.inj (ht.symm.trans ht')
    obtain rfl := hB.unique hB'
    exact habove K hK hmentions

end Unifier

end Generics
