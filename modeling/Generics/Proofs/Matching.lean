import Generics.Matching
import Generics.Proofs.Bindings
import Generics.Proofs.Mentions

/-!
# Matching is solving

Matching a pattern with a concrete type binds the free parameters of the pattern, from left to right, to
the only types that turn it into the concrete one, and it fails only if there are none.
-/

namespace Generics

/-- Only free parameters have another image than themselves. -/
def Rigid (free : List Param) (g : Param → Tree) : Prop := ∀ p ∉ free, g p = .param p

namespace Substitution

variable {ts us : Types} {free : List Param} {S : Param → Prop} {σ τ : Substitution} {A B : Tree}

/-- All of `A`'s free parameters are bound, and so that `A` becomes `B`. -/
structure Solves (ts : Types) (free : List Param) (σ : Substitution) (A B : Tree) : Prop where
  contains : ∀ p ∈ free, p ∈ A.params → σ.contains p
  subst_eq : ∀ g, σ.Agrees ts g → Rigid free g → A.subst g = B

theorem Solves.of_extends (h : σ.Solves ts free A B) (hext : σ.Extends ts S τ) :
    τ.Solves ts free A B where
  contains p hp hA := contains_of_extends hext (h.contains p hp hA)
  subst_eq g hg := h.subst_eq g (hg.of_extends hext)

end Substitution

/-- The free parameters that the trees mention. -/
def FreeIn (free : List Param) (As : List Tree) (p : Param) : Prop :=
  p ∈ free ∧ ∃ A ∈ As, p ∈ A.params

theorem FreeIn.head {free : List Param} {A : Tree} {As : List Tree} {p : Param}
    (h : FreeIn free [A] p) : FreeIn free (A :: As) p := by
  obtain ⟨hfree, A', hA', hp⟩ := h
  rw [List.mem_singleton] at hA'
  exact ⟨hfree, A, List.mem_cons_self .., hA' ▸ hp⟩

theorem FreeIn.tail {free : List Param} {A : Tree} {As : List Tree} {p : Param}
    (h : FreeIn free As p) : FreeIn free (A :: As) p := by
  obtain ⟨hfree, A', hA', hp⟩ := h
  exact ⟨hfree, A', List.mem_cons_of_mem _ hA', hp⟩

namespace Substitution

variable {ts us : Types} {free : List Param} {S : Param → Prop} {σ τ : Substitution}
  {As Bs : List Tree}

/-- Solved side by side. -/
abbrev SolvesAll (ts : Types) (free : List Param) (σ : Substitution) : List Tree → List Tree → Prop :=
  List.Forall₂ (σ.Solves ts free)

theorem SolvesAll.grow (h : σ.SolvesAll ts free As Bs) (hσ : ∃ f, σ.Unfolds ts f)
    (hgrow : ts.Grows us) : σ.SolvesAll us free As Bs :=
  h.imp fun _ _ hAB => ⟨hAB.contains, fun g hg => hAB.subst_eq g (hg.of_grows hσ hgrow)⟩

theorem SolvesAll.of_extends (h : σ.SolvesAll ts free As Bs) (hext : σ.Extends ts S τ) :
    τ.SolvesAll ts free As Bs :=
  h.imp fun _ _ hAB => hAB.of_extends hext

theorem SolvesAll.map_subst_eq (h : σ.SolvesAll ts free As Bs) {g : Param → Tree}
    (hg : σ.Agrees ts g) (hrigid : Rigid free g) : As.map (Tree.subst g) = Bs := by
  induction h with
  | nil => rfl
  | cons hAB _ ih => rw [List.map_cons, hAB.subst_eq g hg hrigid, ih]

theorem SolvesAll.contains (h : σ.SolvesAll ts free As Bs) {p : Param} (hp : FreeIn free As p) :
    σ.contains p := by
  obtain ⟨hfree, A, hA, hpA⟩ := hp
  obtain ⟨B, -, hAB⟩ := exists_of_mem_left h hA
  exact hAB.contains p hfree hpA

theorem SolvesAll.solves_app (h : σ.SolvesAll ts free As Bs) (d : DefId) :
    σ.Solves ts free (.app d As) (.app d Bs) where
  contains p hp hA := by
    rw [Tree.params_app, List.mem_flatMap] at hA
    exact h.contains ⟨hp, hA⟩
  subst_eq g hg hrigid := by rw [Tree.subst_app, h.map_subst_eq hg hrigid]

end Substitution

namespace Matching

variable {ts : Types} {free : List Param} {m m' m'' : Matching} {A B : Tree} {As Bs : List Tree}
  {as bs : List TypeId} {S S' : Param → Prop} {pattern concrete : TypeId} {h : Nat}

/-- Pairs met before are solved, as far as a walk through a pattern of the given height can meet
them. -/
def DoneTo (ts : Types) (free : List Param) (h : Nat) (m : Matching) : Prop :=
  ∀ a b A B, (a, b) ∈ m.matched → ts.Unfolds a A → ts.Unfolds b B → A.height ≤ h →
    m.bindings.Solves ts free A B

/-- `m'` binds parameters in `S`, and it has solved the pairs met since. -/
structure Adds (ts : Types) (free : List Param) (S : Param → Prop) (m m' : Matching) : Prop where
  grows : m.bindings.Extends ts S m'.bindings
  done : ∀ a b A B, (a, b) ∈ m'.matched → ts.Unfolds a A → ts.Unfolds b B →
    (a, b) ∈ m.matched ∨ m'.bindings.Solves ts free A B

theorem Adds.refl (ts : Types) (free : List Param) (S : Param → Prop) (m : Matching) :
    m.Adds ts free S m where
  grows := .refl ts S _
  done _ _ _ _ hmem _ _ := .inl hmem

theorem Adds.trans (h : m.Adds ts free S m') (h' : m'.Adds ts free S m'') : m.Adds ts free S m'' where
  grows := h.grows.trans h'.grows
  done a b A B hmem ha hb := by
    rcases h'.done a b A B hmem ha hb with hmem | hsolves
    · rcases h.done a b A B hmem ha hb with hmem | hsolves
      · exact .inl hmem
      · exact .inr (hsolves.of_extends h'.grows)
    · exact .inr hsolves

theorem Adds.mono (h : m.Adds ts free S m') (hS : ∀ p, S p → S' p) : m.Adds ts free S' m' :=
  ⟨h.grows.mono hS, h.done⟩

/-- The pair with which a walk began is done once it is solved. -/
theorem Adds.of_insert (ha : ts.Unfolds pattern A) (hb : ts.Unfolds concrete B)
    (h : Adds ts free S { m with matched := m.matched.insert (pattern, concrete) } m')
    (hsolves : m'.bindings.Solves ts free A B) : m.Adds ts free S m' := by
  refine ⟨h.grows, fun a b A' B' hmem ha' hb' => ?_⟩
  rcases h.done a b A' B' hmem ha' hb' with hmem | hsolves'
  · rcases mem_insert_treeSet.1 hmem with heq | hmem
    · cases heq
      obtain rfl := ha'.unique ha
      obtain rfl := hb'.unique hb
      exact .inr hsolves
    · exact .inl hmem
  · exact .inr hsolves'

theorem DoneTo.of_adds {n : Nat} (hm : m.DoneTo ts free n) (hadds : m.Adds ts free S m') :
    m'.DoneTo ts free n := by
  intro a b A B hmem ha hb hle
  rcases hadds.done a b A B hmem ha hb with hmem | hsolves
  · exact (hm a b A B hmem ha hb hle).of_extends hadds.grows
  · exact hsolves

/-- A part of the pattern `A` is not the pattern itself, with which the walk has just met a pair. -/
theorem DoneTo.enter {n : Nat} (hm : m.DoneTo ts free A.height) (ha : ts.Unfolds pattern A)
    (hlt : n < A.height) :
    Matching.DoneTo ts free n { m with matched := m.matched.insert (pattern, concrete) } := by
  intro a b A' B' hmem ha' hb' hle
  rcases mem_insert_treeSet.1 hmem with heq | hmem
  · cases heq
    rw [ha'.unique ha] at hle
    omega
  · exact hm a b A' B' hmem ha' hb' (by omega)

/-! ## Binding -/

/-- A free parameter is solved by binding it, or was bound to the same type. -/
theorem of_bind_eq_ok {p : Param} (hp : p ∈ free) (hb : ts.Unfolds concrete B)
    (h : m.bind p concrete = .ok m') :
    m.bindings.Extends ts (FreeIn free [.param p]) m'.bindings ∧ m'.matched = m.matched ∧
      m'.bindings.Solves ts free (.param p) B := by
  have hsolves : ∀ σ : Substitution, σ.get? p = some concrete → σ.Solves ts free (.param p) B := by
    refine fun σ hσ => ⟨fun q _ hq => ?_, fun g hg _ => ?_⟩
    · rw [Tree.params_param, List.mem_singleton] at hq
      exact hq ▸ Substitution.contains_of_get? hσ
    · rw [Tree.subst_param]
      exact (hg p concrete hσ).unique hb
  unfold bind at h
  split at h
  · rename_i hnone
    cases h
    refine ⟨Substitution.extends_insert ⟨hp, _, List.mem_singleton_self _, by simp⟩ ?_ hb, rfl, ?_⟩
    · simp [Substitution.contains, hnone]
    · exact hsolves _ (by rw [Substitution.get?_insert, if_pos rfl])
  · rename_i first hfirst
    split at h
    · rename_i heq
      cases h
      exact ⟨.refl .., rfl, hsolves _ (heq ▸ hfirst)⟩
    · cases h

theorem exists_bind_eq_ok {p : Param} {g : Param → Tree} (hg : m.bindings.Agrees ts g)
    (hb : ts.Unfolds concrete (g p)) :
    ∃ m', m.bind p concrete = .ok m' ∧ m'.bindings.Agrees ts g := by
  unfold bind
  split
  · exact ⟨_, rfl, hg.insert hb⟩
  · rename_i first hfirst
    rw [if_pos ((hg p first hfirst).inj hb)]
    exact ⟨m, rfl, hg⟩

/-! ## Side by side -/

/-- A walk along two lists solves them if each step solves its pair. -/
theorem adds_foldlM {step : Matching → TypeId → TypeId → Except UnifyError Matching}
    (has : List.Forall₂ ts.Unfolds as As) (hbs : List.Forall₂ ts.Unfolds bs Bs)
    (hlen : bs.length = as.length)
    (hstep : ∀ a b A B m m', A ∈ As → ts.Unfolds a A → ts.Unfolds b B →
      m.DoneTo ts free A.height → step m a b = .ok m' →
      m.Adds ts free (FreeIn free [A]) m' ∧ m'.bindings.Solves ts free A B)
    (hm : ∀ A ∈ As, m.DoneTo ts free A.height)
    (h : (as.zip bs).foldlM (fun m (a, b) => step m a b) m = .ok m') :
    m.Adds ts free (FreeIn free As) m' ∧ m'.bindings.SolvesAll ts free As Bs := by
  induction has generalizing bs Bs m with
  | nil =>
    obtain rfl := List.length_eq_zero_iff.1 hlen
    cases hbs
    cases h
    exact ⟨.refl .., .nil⟩
  | @cons a A as As ha has ih =>
    cases hbs with
    | nil => cases hlen
    | @cons b B bs Bs hb hbs =>
      simp only [List.mem_cons, forall_eq_or_imp] at hm
      rw [List.zip_cons_cons, List.foldlM_cons, bind_eq_ok_iff] at h
      obtain ⟨m₁, hfirst, hrest⟩ := h
      obtain ⟨hadds, hsolves⟩ := hstep a b A B m m₁ (List.mem_cons_self ..) ha hb hm.1 hfirst
      obtain ⟨hadds', hsolves'⟩ := ih hbs (Nat.succ.inj hlen)
        (fun a b A B m m' hA => hstep a b A B m m' (List.mem_cons_of_mem _ hA))
        (fun A hA => (hm.2 A hA).of_adds hadds) hrest
      exact ⟨(hadds.mono fun p hp => hp.head).trans (hadds'.mono fun p hp => hp.tail),
        .cons (hsolves.of_extends hadds'.grows) hsolves'⟩

theorem exists_foldlM_eq_ok {step : Matching → TypeId → TypeId → Except UnifyError Matching}
    {g : Param → Tree} (has : List.Forall₂ ts.Unfolds as As)
    (hbs : List.Forall₂ ts.Unfolds bs (As.map (Tree.subst g)))
    (hstep : ∀ a b A m, A ∈ As → ts.Unfolds a A → ts.Unfolds b (A.subst g) →
      m.bindings.Agrees ts g → ∃ m', step m a b = .ok m' ∧ m'.bindings.Agrees ts g)
    (hg : m.bindings.Agrees ts g) :
    ∃ m', (as.zip bs).foldlM (fun m (a, b) => step m a b) m = .ok m' ∧
      m'.bindings.Agrees ts g := by
  induction has generalizing bs m with
  | nil =>
    rw [List.map_nil, List.forall₂_nil_right_iff] at hbs
    subst hbs
    exact ⟨m, rfl, hg⟩
  | @cons a A as As ha _ ih =>
    rw [List.map_cons] at hbs
    cases hbs with
    | @cons b _ bs _ hb hbs =>
      obtain ⟨m₁, hfirst, hg₁⟩ := hstep a b A m (List.mem_cons_self ..) ha hb hg
      obtain ⟨m', hrest, hg'⟩ := ih hbs
        (fun a b A m hA => hstep a b A m (List.mem_cons_of_mem _ hA)) hg₁
      refine ⟨m', ?_, hg'⟩
      rw [List.zip_cons_cons, List.foldlM_cons, bind_eq_ok_iff]
      exact ⟨m₁, hfirst, hrest⟩

end Matching

/-! ## One pair -/

namespace Catalog

variable {c : Catalog} {ts us : Types} {free : List Param} {m m' : Matching} {A B : Tree} {n n' : Nat}
  {pattern concrete : TypeId} {g : Param → Tree}

theorem matchRigid_eq_ok_iff :
    View.matchRigid m pattern concrete = .ok m' ↔ pattern = concrete ∧ m' = m := by
  unfold View.matchRigid
  split <;> simp_all [eq_comm]

theorem of_matchRigid_eq_ok (free : List Param) (ha : ts.Unfolds pattern A)
    (hb : ts.Unfolds concrete B) (hfree : ∀ p ∈ free, p ∉ A.params)
    (h : View.matchRigid m pattern concrete = .ok m') :
    m' = m ∧ ∀ σ : Substitution, σ.Solves ts free A B := by
  obtain ⟨rfl, rfl⟩ := matchRigid_eq_ok_iff.1 h
  refine ⟨rfl, fun σ => ⟨fun p hp hpA => absurd hpA (hfree p hp), fun g _ hrigid => ?_⟩⟩
  rw [Tree.subst_eq_self fun p hp => hrigid p fun hmem => hfree p hmem hp]
  exact ha.unique hb

theorem adds_matchTo (hplain : c.overrides = []) (ha : ts.Unfolds pattern A)
    (hb : ts.Unfolds concrete B) (hn : A.height ≤ n) (hm : m.DoneTo ts free A.height)
    (h : (c.view ts).matchTo free n m pattern concrete = .ok m') :
    m.Adds ts free (FreeIn free [A]) m' ∧ m'.bindings.Solves ts free A B := by
  induction n generalizing pattern concrete A B m m' with
  | zero => exact absurd hn (Nat.not_le_of_lt A.height_pos)
  | succ n ih =>
    rw [View.matchTo] at h
    split at h
    · rename_i hmem
      cases h
      rw [Std.TreeSet.contains_iff_mem] at hmem
      exact ⟨.refl .., hm _ _ A B hmem ha hb (Nat.le_refl _)⟩
    have hdone : ∀ {m'' : Matching}, m''.bindings.Solves ts free A B →
        Matching.Adds ts free (FreeIn free [A])
          { m with matched := m.matched.insert (pattern, concrete) } m'' →
        m.Adds ts free (FreeIn free [A]) m'' := fun hsolves hadds => hadds.of_insert ha hb hsolves
    simp only [view_node? hplain] at h
    cases ha with
    | named ha =>
      simp only [ha] at h
      obtain ⟨rfl, hsolves⟩ := of_matchRigid_eq_ok free (.named ha) hb (by simp) h
      exact ⟨hdone (hsolves _) (.refl ..), hsolves _⟩
    | @param _ p ha =>
      simp only [ha] at h
      split at h
      · rename_i hp
        obtain ⟨hext, hmatched, hsolves⟩ := Matching.of_bind_eq_ok hp hb h
        exact ⟨hdone hsolves ⟨hext, fun a b A B hmem _ _ => .inl (hmatched ▸ hmem)⟩, hsolves⟩
      · rename_i hp
        obtain ⟨rfl, hsolves⟩ := of_matchRigid_eq_ok free (.param ha) hb
          (fun q hq hmem => hp ((List.mem_singleton.1 (by simpa using hmem) : q = p) ▸ hq)) h
        exact ⟨hdone (hsolves _) (.refl ..), hsolves _⟩
    | @app _ d as As ha has =>
      simp only [ha] at h
      cases hb with
      | named hb => simp [hb] at h
      | param hb => simp [hb] at h
      | @app _ e bs Bs hb hbs =>
        simp only [hb] at h
        split at h
        · rename_i halike
          obtain ⟨rfl, hlen⟩ := halike
          have hargs : ∀ A ∈ As, Matching.DoneTo ts free A.height
              { m with matched := m.matched.insert (pattern, concrete) } := fun A hA =>
            hm.enter (.app ha has) (Tree.height_lt_of_mem hA)
          obtain ⟨hadds, hsolves⟩ := Matching.adds_foldlM has hbs hlen
            (fun a b A B m m' hA ha hb hm h => ih ha hb (Tree.height_le_of_mem hn hA) hm h) hargs h
          have hsolves' := hsolves.solves_app e
          refine ⟨hdone hsolves' (hadds.mono fun p hp => ⟨hp.1, _, List.mem_singleton_self _, ?_⟩),
            hsolves'⟩
          rw [Tree.params_app, List.mem_flatMap]
          exact hp.2
        · cases h

/-- Where some substitution solves a pair, matching does not fail. -/
theorem exists_matchTo_eq_ok (hplain : c.overrides = []) (ha : ts.Unfolds pattern A)
    (hb : ts.Unfolds concrete (A.subst g)) (hn : A.height ≤ n) (hg : m.bindings.Agrees ts g)
    (hrigid : Rigid free g) :
    ∃ m', (c.view ts).matchTo free n m pattern concrete = .ok m' ∧ m'.bindings.Agrees ts g := by
  induction n generalizing pattern concrete A m with
  | zero => exact absurd hn (Nat.not_le_of_lt A.height_pos)
  | succ n ih =>
    rw [View.matchTo]
    split
    · exact ⟨m, rfl, hg⟩
    simp only [view_node? hplain]
    cases ha with
    | named ha =>
      rw [Tree.subst_named] at hb
      simp only [ha, View.matchRigid, if_pos (Types.Unfolds.inj (.named ha) hb)]
      exact ⟨_, rfl, hg⟩
    | @param _ p ha =>
      rw [Tree.subst_param] at hb
      simp only [ha]
      split
      · exact Matching.exists_bind_eq_ok
          (m := { m with matched := m.matched.insert (pattern, concrete) }) hg hb
      · rename_i hp
        rw [hrigid p hp] at hb
        simp only [View.matchRigid, if_pos (Types.Unfolds.inj (.param ha) hb)]
        exact ⟨_, rfl, hg⟩
    | @app _ d as As ha has =>
      rw [Tree.subst_app] at hb
      obtain ⟨bs, hb, hbs⟩ := hb.exists_app
      have hlen : bs.length = as.length := by
        rw [hbs.length_eq, List.length_map, has.length_eq]
      simp only [ha, hb, if_pos (And.intro trivial hlen)]
      exact Matching.exists_foldlM_eq_ok
        (m := { m with matched := m.matched.insert (pattern, concrete) }) has hbs
        (fun a b A m hA ha hb hg => ih ha hb (Tree.height_le_of_mem hn hA) hg) hg

theorem matchTo_eq (hplain : c.overrides = []) (ha : ts.Unfolds pattern A)
    (hb : ts.Unfolds concrete B) (hgrow : ts.Grows us) (hn : A.height ≤ n) (hn' : A.height ≤ n')
    (m : Matching) :
    (c.view us).matchTo free n' m pattern concrete = (c.view ts).matchTo free n m pattern concrete := by
  induction n generalizing pattern concrete A B n' m with
  | zero => exact absurd hn (Nat.not_le_of_lt A.height_pos)
  | succ n ih =>
    obtain ⟨n', rfl⟩ := Nat.exists_eq_add_one_of_ne_zero
      (Nat.pos_iff_ne_zero.1 (Nat.lt_of_lt_of_le A.height_pos hn'))
    rw [View.matchTo, View.matchTo]
    simp only [view_node? hplain]
    cases ha with
    | named ha => simp only [ha, hgrow _ _ ha]
    | param ha => simp only [ha, hgrow _ _ ha]
    | @app _ d as As ha has =>
      cases hb with
      | named hb => simp only [ha, hb, hgrow _ _ ha, hgrow _ _ hb]
      | param hb => simp only [ha, hb, hgrow _ _ ha, hgrow _ _ hb]
      | @app _ e bs Bs hb hbs =>
        simp only [ha, hb, hgrow _ _ ha, hgrow _ _ hb]
        split
        · rfl
        split
        · refine foldlM_ext (fun m pair hpair => ?_) _
          obtain ⟨a, b⟩ := pair
          obtain ⟨ha, hb⟩ := List.of_mem_zip hpair
          obtain ⟨A, hA, ha⟩ := exists_of_mem_left has ha
          obtain ⟨B, -, hb⟩ := exists_of_mem_left hbs hb
          exact ih ha hb (Tree.height_le_of_mem hn hA) (Tree.height_le_of_mem hn' hA) m
        · rfl

/-! ## Patterns side by side -/

variable {σ τ : Substitution} {as bs : List TypeId} {As Bs : List Tree}

/-- A store has fuel to match any of its types. -/
theorem height_le_bound_mul (ha : ts.Unfolds pattern A) :
    A.height ≤ (c.view ts).bound * (c.view ts).bound := by
  have hlt := Nat.lt_of_le_of_lt ha.height_le (c.size_lt_bound ts)
  exact Nat.le_trans (Nat.le_of_lt hlt) (Nat.le_mul_of_pos_left _ (Nat.lt_of_le_of_lt (Nat.zero_le _) hlt))

theorem of_matchType_eq_ok (hplain : c.overrides = []) (ha : ts.Unfolds pattern A)
    (hb : ts.Unfolds concrete B) (h : (c.view ts).matchType free σ pattern concrete = .ok τ) :
    σ.Extends ts (FreeIn free [A]) τ ∧ τ.Solves ts free A B := by
  unfold View.matchType at h
  cases hrun : (c.view ts).matchTo free ((c.view ts).bound * (c.view ts).bound) ⟨σ, ∅⟩ pattern
      concrete with
  | error e => simp [hrun, Except.map] at h
  | ok m =>
    rw [hrun] at h
    cases h
    obtain ⟨hadds, hsolves⟩ := adds_matchTo hplain ha hb (height_le_bound_mul ha)
      (fun _ _ _ _ hmem => absurd hmem Std.TreeSet.not_mem_emptyc) hrun
    exact ⟨hadds.grows, hsolves⟩

/-- Matching succeeds only with bindings that solve every pair. -/
theorem of_matchAll_eq_ok (hplain : c.overrides = []) (has : List.Forall₂ ts.Unfolds as As)
    (hbs : List.Forall₂ ts.Unfolds bs Bs) (hlen : bs.length = as.length)
    (h : (c.view ts).matchAll free σ as bs = .ok τ) :
    σ.Extends ts (FreeIn free As) τ ∧ τ.SolvesAll ts free As Bs := by
  unfold View.matchAll at h
  induction has generalizing bs Bs σ with
  | nil =>
    obtain rfl := List.length_eq_zero_iff.1 hlen
    cases hbs
    cases h
    exact ⟨.refl .., .nil⟩
  | @cons a A as As ha _ ih =>
    cases hbs with
    | nil => cases hlen
    | @cons b B bs Bs hb hbs =>
      rw [List.zip_cons_cons, List.foldlM_cons, bind_eq_ok_iff] at h
      obtain ⟨σ₁, hfirst, hrest⟩ := h
      obtain ⟨hext, hsolves⟩ := of_matchType_eq_ok hplain ha hb hfirst
      obtain ⟨hext', hsolves'⟩ := ih hbs (Nat.succ.inj hlen) hrest
      exact ⟨(hext.mono fun p hp => hp.head).trans (hext'.mono fun p hp => hp.tail),
        .cons (hsolves.of_extends hext') hsolves'⟩

/-- Where some substitution solves all pairs, matching succeeds with bindings it agrees with. -/
theorem exists_matchAll_eq_ok (hplain : c.overrides = []) (has : List.Forall₂ ts.Unfolds as As)
    (hbs : List.Forall₂ ts.Unfolds bs (As.map (Tree.subst g))) (hg : σ.Agrees ts g)
    (hrigid : Rigid free g) :
    ∃ τ, (c.view ts).matchAll free σ as bs = .ok τ ∧ τ.Agrees ts g := by
  unfold View.matchAll
  induction has generalizing bs σ with
  | nil =>
    rw [List.map_nil, List.forall₂_nil_right_iff] at hbs
    subst hbs
    exact ⟨σ, rfl, hg⟩
  | @cons a A as As ha _ ih =>
    rw [List.map_cons] at hbs
    cases hbs with
    | @cons b _ bs _ hb hbs =>
      obtain ⟨m, hrun, hg'⟩ := exists_matchTo_eq_ok (m := ⟨σ, ∅⟩) hplain ha hb
        (height_le_bound_mul (c := c) ha) hg hrigid
      have hfirst : (c.view ts).matchType free σ a b = .ok m.bindings := by
        rw [View.matchType, hrun]
        rfl
      obtain ⟨τ, hrest, hg''⟩ := ih hbs hg'
      refine ⟨τ, ?_, hg''⟩
      rw [List.zip_cons_cons, List.foldlM_cons, bind_eq_ok_iff]
      exact ⟨m.bindings, hfirst, hrest⟩

theorem matchAll_grow (hplain : c.overrides = []) (has : List.Forall₂ ts.Unfolds as As)
    (hbs : List.Forall₂ ts.Unfolds bs Bs) (hgrow : ts.Grows us) (σ : Substitution) :
    (c.view us).matchAll free σ as bs = (c.view ts).matchAll free σ as bs := by
  refine foldlM_ext (fun σ pair hpair => ?_) σ
  obtain ⟨a, b⟩ := pair
  obtain ⟨ha, hb⟩ := List.of_mem_zip hpair
  obtain ⟨A, -, ha⟩ := exists_of_mem_left has ha
  obtain ⟨B, -, hb⟩ := exists_of_mem_left hbs hb
  simp only [View.matchType]
  rw [matchTo_eq hplain ha hb hgrow (height_le_bound_mul ha) (height_le_bound_mul (ha.grow hgrow))]

end Catalog

/-! ## The order of bindings -/

section

open View.Mentions (appendNew)

variable {c : Catalog} {ts : Types} {free : List Param} {m m' : Matching} {σ τ : Substitution}
  {A B : Tree} {As Bs : List Tree} {as bs : List TypeId} {n : Nat} {p : Param}
  {pattern concrete : TypeId}

theorem Matching.domain_bind (h : m.bind p concrete = .ok m') :
    m'.bindings.domain = appendNew m.bindings.domain [p] := by
  rw [appendNew, List.foldl_cons, List.foldl_nil]
  unfold Matching.bind at h
  split at h
  · rename_i hnone
    cases h
    have hnew : ¬m.bindings.contains p := by simp [Substitution.contains, hnone]
    rw [if_neg fun hmem => hnew ((Substitution.contains_iff_mem_domain ..).2 hmem),
      Substitution.insert_of_not_contains hnew]
    simp [Substitution.domain]
  · rename_i first hfirst
    split at h
    · cases h
      rw [if_pos ((Substitution.contains_iff_mem_domain ..).1 (Substitution.contains_of_get? hfirst))]
    · cases h

theorem Matching.domain_foldlM {step : Matching → TypeId → TypeId → Except UnifyError Matching}
    (has : List.Forall₂ ts.Unfolds as As) (hbs : List.Forall₂ ts.Unfolds bs Bs)
    (hlen : bs.length = as.length)
    (hstep : ∀ a b A B m m', A ∈ As → ts.Unfolds a A → ts.Unfolds b B →
      m.DoneTo ts free A.height → step m a b = .ok m' →
      m.Adds ts free (FreeIn free [A]) m' ∧
        m'.bindings.domain = appendNew m.bindings.domain (A.params.filter (· ∈ free)))
    (hm : ∀ A ∈ As, m.DoneTo ts free A.height)
    (h : (as.zip bs).foldlM (fun m (a, b) => step m a b) m = .ok m') :
    m'.bindings.domain =
      appendNew m.bindings.domain ((As.flatMap Tree.params).filter (· ∈ free)) := by
  induction has generalizing bs Bs m with
  | nil =>
    cases h
    rfl
  | @cons a A as As ha has ih =>
    cases hbs with
    | nil => cases hlen
    | @cons b B bs Bs hb hbs =>
      simp only [List.mem_cons, forall_eq_or_imp] at hm
      rw [List.zip_cons_cons, List.foldlM_cons, bind_eq_ok_iff] at h
      obtain ⟨m₁, hfirst, hrest⟩ := h
      obtain ⟨hadds, hdomain⟩ := hstep a b A B m m₁ (List.mem_cons_self ..) ha hb hm.1 hfirst
      rw [List.flatMap_cons, List.filter_append, View.Mentions.appendNew_append, ← hdomain]
      exact ih hbs (Nat.succ.inj hlen)
        (fun a b A B m m' hA => hstep a b A B m m' (List.mem_cons_of_mem _ hA))
        (fun A hA => (hm.2 A hA).of_adds hadds) hrest

theorem Catalog.domain_matchRigid (hfree : ∀ p ∈ A.params, p ∉ free)
    (h : View.matchRigid m pattern concrete = .ok m') :
    m'.bindings.domain = appendNew m.bindings.domain (A.params.filter (· ∈ free)) := by
  obtain ⟨-, rfl⟩ := matchRigid_eq_ok_iff.1 h
  rw [List.filter_eq_nil_iff.2 (by simpa using hfree)]
  rfl

/-- Matching binds the free parameters of the pattern from left to right. -/
theorem Catalog.domain_matchTo (hplain : c.overrides = []) (ha : ts.Unfolds pattern A)
    (hb : ts.Unfolds concrete B) (hn : A.height ≤ n) (hm : m.DoneTo ts free A.height)
    (h : (c.view ts).matchTo free n m pattern concrete = .ok m') :
    m'.bindings.domain = appendNew m.bindings.domain (A.params.filter (· ∈ free)) := by
  induction n generalizing pattern concrete A B m m' with
  | zero => exact absurd hn (Nat.not_le_of_lt A.height_pos)
  | succ n ih =>
    rw [View.matchTo] at h
    split at h
    · rename_i hmem
      cases h
      rw [Std.TreeSet.contains_iff_mem] at hmem
      have hsolves := hm _ _ A B hmem ha hb (Nat.le_refl _)
      refine (View.Mentions.appendNew_of_subset fun p hp => ?_).symm
      obtain ⟨hpA, hpfree⟩ := List.mem_filter.1 hp
      exact (Substitution.contains_iff_mem_domain ..).1 (hsolves.contains p (by simpa using hpfree) hpA)
    simp only [view_node? hplain] at h
    cases ha with
    | named ha =>
      simp only [ha] at h
      exact domain_matchRigid (m := { m with matched := m.matched.insert _ }) (by simp) h
    | @param _ p ha =>
      simp only [ha] at h
      split at h
      · rename_i hp
        rw [Matching.domain_bind h, Tree.params_param, List.filter_singleton]
        simp [hp]
      · rename_i hp
        exact domain_matchRigid (m := { m with matched := m.matched.insert _ }) (by simpa using hp) h
    | @app _ d as As ha has =>
      simp only [ha] at h
      cases hb with
      | named hb => simp [hb] at h
      | param hb => simp [hb] at h
      | @app _ e bs Bs hb hbs =>
        simp only [hb] at h
        split at h
        · rename_i halike
          obtain ⟨rfl, hlen⟩ := halike
          rw [Tree.params_app]
          refine Matching.domain_foldlM (m := { m with matched := m.matched.insert _ }) has hbs hlen
            (fun a b A B m m' hA ha hb hm h => ?_)
            (fun A hA => hm.enter (.app ha has) (Tree.height_lt_of_mem hA)) h
          have hle := Tree.height_le_of_mem hn hA
          exact ⟨(adds_matchTo hplain ha hb hle hm h).1, ih ha hb hle hm h⟩
        · cases h

theorem Catalog.domain_matchType (hplain : c.overrides = []) (ha : ts.Unfolds pattern A)
    (hb : ts.Unfolds concrete B) (h : (c.view ts).matchType free σ pattern concrete = .ok τ) :
    τ.domain = appendNew σ.domain (A.params.filter (· ∈ free)) := by
  unfold View.matchType at h
  cases hrun : (c.view ts).matchTo free ((c.view ts).bound * (c.view ts).bound) ⟨σ, ∅⟩ pattern
      concrete with
  | error e => simp [hrun, Except.map] at h
  | ok m =>
    rw [hrun] at h
    cases h
    exact domain_matchTo hplain ha hb (height_le_bound_mul ha)
      (fun _ _ _ _ hmem => absurd hmem Std.TreeSet.not_mem_emptyc) hrun

theorem Catalog.domain_matchAll (hplain : c.overrides = []) (has : List.Forall₂ ts.Unfolds as As)
    (hbs : List.Forall₂ ts.Unfolds bs Bs) (hlen : bs.length = as.length)
    (h : (c.view ts).matchAll free σ as bs = .ok τ) :
    τ.domain = appendNew σ.domain ((As.flatMap Tree.params).filter (· ∈ free)) := by
  unfold View.matchAll at h
  induction has generalizing bs Bs σ with
  | nil =>
    cases h
    rfl
  | @cons a A as As ha _ ih =>
    cases hbs with
    | nil => cases hlen
    | @cons b B bs Bs hb hbs =>
      rw [List.zip_cons_cons, List.foldlM_cons, bind_eq_ok_iff] at h
      obtain ⟨σ₁, hfirst, hrest⟩ := h
      rw [List.flatMap_cons, List.filter_append, View.Mentions.appendNew_append,
        ← domain_matchType hplain ha hb hfirst]
      exact ih hbs (Nat.succ.inj hlen) hrest

end

end Generics
