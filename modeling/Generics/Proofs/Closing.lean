import Generics.Closing
import Generics.Proofs.Construction
import Generics.Proofs.Expansion

/-!
# Closing substitutes

However the arguments of a closed type come about, by matching, by inference or by filling positions
that were not reached, they are the arguments of the implementation under one substitution of its
free parameters.  Conversely, a substitution that is consistent with the types found closes the
implementation, unless a guard objects.
-/

namespace Generics

namespace Closing

variable {c : Catalog} {base ts us : Types} {k : Closing} {found σ : Substitution}
  {h : Param → Tree} {Fs : List Tree} {s s' : Slot} {i : Nat} {F : Tree} {a t : TypeId}

/-- A type that was found for a position is what `h` makes of the argument there, and where none was
found, that mentions no free parameter. -/
def Consistent (k : Closing) (ts : Types) (Fs : List Tree) (found : Substitution)
    (h : Param → Tree) : Prop :=
  ∀ (i : Nat) (F : Tree), Fs[i]? = some F →
    (∀ t, found.get? ⟨k.definition, i⟩ = some t → ts.Unfolds t (F.subst h)) ∧
      (found.get? ⟨k.definition, i⟩ = none → ∀ p ∈ k.free, p ∉ (F.subst h).params)

/-- The free parameter `p` occurs in an argument at a position for which a type was found. -/
def ReachedBy (k : Closing) (Fs : List Tree) (found : Substitution) (p : Param) : Prop :=
  p ∈ k.free ∧ ∃ (i : Nat) (F : Tree) (t : TypeId), Fs[i]? = some F ∧ p ∈ F.params ∧
    found.get? ⟨k.definition, i⟩ = some t

/-- Every free parameter is reached. -/
def Reached (k : Closing) (Fs : List Tree) (found : Substitution) : Prop :=
  ∀ p ∈ k.free, k.ReachedBy Fs found p

/-! ## Slots -/

theorem slots_grow (hplain : c.overrides = []) (hargs : List.Forall₂ ts.Unfolds k.args Fs)
    (hgrow : ts.Grows us) : k.slots (c.view us) found = k.slots (c.view ts) found := by
  refine List.mapIdx_eq_mapIdx_iff.2 fun i hi => ?_
  obtain ⟨F, -, hF⟩ := exists_of_mem_left hargs (List.getElem_mem hi)
  simp only [View.candidateFor, c.mentionsAny_grow hplain hF hgrow]

theorem getElem?_slots {v : View} :
    (k.slots v found)[i]? = k.args[i]?.map fun a =>
      ⟨i, a, v.candidateFor k.free a (found.get? ⟨k.definition, i⟩)⟩ :=
  List.getElem?_mapIdx

theorem mem_slots {v : View} : s ∈ k.slots v found ↔ ∃ (i : Nat) (a : TypeId),
    k.args[i]? = some a ∧
      s = ⟨i, a, v.candidateFor k.free a (found.get? ⟨k.definition, i⟩)⟩ := by
  simp only [List.mem_iff_getElem?, getElem?_slots, Option.map_eq_some_iff, eq_comm (b := s)]

theorem mem_openPairs {v : View} {b : TypeId} :
    (a, b) ∈ k.openPairs v (k.slots v found) ↔ ∃ i : Nat, k.args[i]? = some a ∧
      v.mentionsAny a k.free ∧ found.get? ⟨k.definition, i⟩ = some b := by
  simp only [openPairs, List.mem_filterMap, List.mem_filter, mem_slots]
  constructor
  · rintro ⟨_, ⟨⟨i, a', ha, rfl⟩, hmentions⟩, hb⟩
    obtain ⟨t, ht, hab⟩ := Option.map_eq_some_iff.1 hb
    cases hab
    refine ⟨i, ha, hmentions, ?_⟩
    unfold View.candidateFor at ht
    split at ht
    · rename_i hfound
      exact hfound.trans ht
    · rw [if_pos hmentions] at ht
      cases ht
  · rintro ⟨i, ha, hmentions, hfound⟩
    exact ⟨_, ⟨⟨i, a, ha, rfl⟩, hmentions⟩, by rw [hfound]; rfl⟩

theorem openPairs_grow (hplain : c.overrides = []) (hargs : List.Forall₂ ts.Unfolds k.args Fs)
    (hgrow : ts.Grows us) {v : View} :
    k.openPairs (c.view us) (k.slots v found) = k.openPairs (c.view ts) (k.slots v found) := by
  refine congrArg _ (List.filter_congr fun s hs => ?_)
  obtain ⟨i, a, ha, rfl⟩ := mem_slots.1 hs
  obtain ⟨F, -, hF⟩ := exists_getElem?_of_forall₂ hargs ha
  exact c.mentionsAny_grow hplain hF hgrow

/-! ## Binding free parameters -/

/-- The open arguments and the types they must become, written out. -/
theorem exists_openPairs_unfold (hplain : c.overrides = [])
    (hargs : List.Forall₂ ts.Unfolds k.args Fs) (hfound : ∃ f, found.Unfolds ts f) :
    ∃ As Bs, List.Forall₂ ts.Unfolds
        ((k.openPairs (c.view ts) (k.slots (c.view ts) found)).map (·.1)) As ∧
      List.Forall₂ ts.Unfolds
        ((k.openPairs (c.view ts) (k.slots (c.view ts) found)).map (·.2)) Bs ∧
      ∀ R : Tree → Tree → Prop, List.Forall₂ R As Bs ↔ ∀ (i : Nat) F t T, Fs[i]? = some F →
        (∃ p ∈ k.free, p ∈ F.params) → found.get? ⟨k.definition, i⟩ = some t → ts.Unfolds t T →
          R F T := by
  obtain ⟨f, hf⟩ := hfound
  have hpairs : ∀ pair ∈ k.openPairs (c.view ts) (k.slots (c.view ts) found),
      ∃ trees : Tree × Tree, ts.Unfolds pair.1 trees.1 ∧ ts.Unfolds pair.2 trees.2 := by
    rintro ⟨a, b⟩ hpair
    obtain ⟨i, ha, -, hb⟩ := mem_openPairs.1 hpair
    obtain ⟨F, -, hF⟩ := exists_getElem?_of_forall₂ hargs ha
    exact ⟨(F, _), hF, (hf _).1 b hb⟩
  obtain ⟨trees, htrees⟩ := forall₂_of_forall_exists hpairs
  refine ⟨trees.map (·.1), trees.map (·.2), ?_, ?_, fun R => ?_⟩
  · rw [List.forall₂_map_left_iff, List.forall₂_map_right_iff]
    exact htrees.imp fun _ _ h => h.1
  · rw [List.forall₂_map_left_iff, List.forall₂_map_right_iff]
    exact htrees.imp fun _ _ h => h.2
  · rw [List.forall₂_map_left_iff, List.forall₂_map_right_iff, List.forall₂_same]
    constructor
    · intro hR i F t T hF hmentions ht hT
      obtain ⟨a, ha, haF⟩ := exists_getElem?_of_forall₂ hargs.flip hF
      obtain ⟨pair, hpair, h₁, h₂⟩ := exists_of_mem_left htrees
        (mem_openPairs.2 ⟨i, ha, (c.mentionsAny_iff hplain haF).2 hmentions, ht⟩)
      rw [haF.unique h₁, hT.unique h₂]
      exact hR pair hpair
    · intro hR pair hpair
      obtain ⟨⟨a, b⟩, hab, h₁, h₂⟩ := exists_of_mem_right htrees hpair
      obtain ⟨i, ha, hmentions, hb⟩ := mem_openPairs.1 hab
      obtain ⟨F, hF, haF⟩ := exists_getElem?_of_forall₂ hargs ha
      rw [h₁.unique haF]
      exact hR i F b _ hF ((c.mentionsAny_iff hplain haF).1 hmentions) hb h₂

/-- Binding the free parameters solves the open arguments.  Where `h` is consistent with the types
found, and inference has nothing to add, it gives what `h` does, unless it is cut short. -/
theorem settles_bindFree (hc : c.Grounded base) (hbase : base.Grows ts)
    (hargs : List.Forall₂ ts.Unfolds k.args Fs) (hfound : ∃ f, found.Unfolds ts f) :
    Engine.Settles (k.bindFree c (k.slots (c.view ts) found)) ts fun r us cut =>
      (∀ σ, r = .ok σ → Substitution.empty.Extends us (· ∈ k.free) σ ∧
        (∀ (i : Nat) F t T, Fs[i]? = some F → (∃ p ∈ k.free, p ∈ F.params) →
          found.get? ⟨k.definition, i⟩ = some t → ts.Unfolds t T → σ.Solves us k.free F T) ∧
        ∀ p t B, σ.get? p = some t → us.Unfolds t B →
          Unifier.Answered c base k.free (.assign k.definition Fs) p B) ∧
      (cut = false → ∀ h, Rigid k.free h → k.Consistent ts Fs found h → k.Reached Fs found →
        (∀ p ∈ k.free, Unifier.Supported c base k.free (.assign k.definition Fs) (· ∈ k.free) p
          (h p)) →
        ∃ σ, r = .ok σ ∧ σ.Agrees us h ∧ ∀ p, σ.contains p ↔ p ∈ k.free) := by
  obtain ⟨As, Bs, has, hbs, hpairs⟩ := exists_openPairs_unfold hc.plain hargs hfound
  unfold bindFree
  refine .query_bind c (fun vs hvs => openPairs_grow hc.plain hargs hvs) ?_
  have hclosure := Substitution.unfolds_ofArgs k.definition hargs
  refine ((Guard.Watches.retire _ (Unifier.watches_unify hc hbase hclosure has hbs)).and
    (Guard.Watches.retire _ (Unifier.watches_unify_answered hc hbase hclosure has hbs rfl))).mono ?_
  rintro r us cut - ⟨⟨hsound, hcomplete⟩, hanswered⟩
  have hmem : List.Forall₂ (fun A _ => A ∈ As) As Bs :=
    forall₂_imp_of_mem ((hpairs fun _ _ => True).2 fun _ _ _ _ _ _ _ _ => trivial)
      fun A hA _ _ _ => hA
  have hfree : ∀ p, k.ReachedBy Fs found p → FreeIn k.free As p := by
    rintro p ⟨hp, i, F, t, hF, hpF, ht⟩
    obtain ⟨f, hf⟩ := hfound
    exact ⟨hp, F, (hpairs _).1 hmem i F t _ hF ⟨p, hp, hpF⟩ ht ((hf _).1 t ht), hpF⟩
  refine ⟨fun σ hσ => ?_, fun hcut h hrigid hconsistent hreached hsupported => ?_⟩
  · obtain ⟨hsolves, hext⟩ := hsound σ hσ
    exact ⟨hext, (hpairs _).1 hsolves, hanswered σ hσ⟩
  · have hsolved : As.map (Tree.subst h) = Bs := by
      rw [← List.forall₂_eq_eq_eq, List.forall₂_map_left_iff, hpairs]
      exact fun i F t T hF _ ht hT => ((hconsistent i F hF).1 t ht).unique hT
    obtain ⟨σ, hσ, hagrees, hcontains⟩ := hcomplete hcut h hrigid hsolved fun p hp =>
      (hsupported p hp.1).imp fun q hq => hfree q (hreached q hq)
    exact ⟨σ, hσ, hagrees, fun p => (hcontains p).trans ⟨And.left, fun hp => hfree p (hreached p hp)⟩⟩

/-! ## Filling and settling slots -/

/-- What filling makes of a slot: it is kept if it has a candidate or if its argument stays open under
`h`, and otherwise it gets what `h` makes of its argument. -/
inductive Filled (us : Types) (free : List Param) (h : Param → Tree) (s : Slot) : Slot → Prop
  | kept {F : Tree} (hF : us.Unfolds s.fixed F)
      (hopen : s.candidate = none → ∃ p ∈ free, p ∈ (F.subst h).params) : Filled us free h s s
  | filled {F : Tree} {t : TypeId} (hF : us.Unfolds s.fixed F) (ht : us.Unfolds t (F.subst h))
      (hnone : s.candidate = none) (hclosed : ∀ p ∈ free, p ∉ (F.subst h).params) :
      Filled us free h s { s with candidate := some t }

theorem Filled.grow {free : List Param} (hs : Filled ts free h s s') (hgrow : ts.Grows us) :
    Filled us free h s s' := by
  cases hs with
  | kept hF hopen => exact .kept (hF.grow hgrow) hopen
  | filled hF ht hnone hclosed => exact .filled (hF.grow hgrow) (ht.grow hgrow) hnone hclosed

theorem settles_fillSlot (hplain : c.overrides = []) (hσ : σ.Unfolds ts h)
    (hF : ts.Unfolds s.fixed F) :
    Engine.Settles (k.fillSlot c σ s) ts fun s' us cut => Filled us k.free h s s' ∧ cut = false := by
  unfold fillSlot
  split
  · rename_i hsome
    exact .pure ⟨.kept hF fun hnone => absurd (hsome.symm.trans hnone) nofun, rfl⟩
  · rename_i hnone
    refine (Engine.settles_instantiate hplain hF hσ).bind ?_
    rintro t us _ hgrow ⟨ht, rfl, -⟩
    refine .query_bind c (fun vs hvs => c.mentionsAny_grow hplain ht hvs) ?_
    split
    · rename_i hmentions
      exact .pure ⟨.kept (hF.grow hgrow) fun _ => (c.mentionsAny_iff hplain ht).1 hmentions, rfl⟩
    · rename_i hclosed
      rw [c.mentionsAny_iff hplain ht] at hclosed
      exact .pure ⟨.filled (hF.grow hgrow) ht hnone fun p hp hmem => hclosed ⟨p, hp, hmem⟩, rfl⟩

theorem settle_eq_ok_iff {v : View} :
    k.settle v s = .ok t ↔ s.candidate = some t ∧ (t = s.fixed ∨ v.mentionsAny s.fixed k.free) := by
  unfold settle
  split
  · rename_i t' ht'
    rw [Slot.isSettled, ht']
    simp only [Bool.or_eq_true, beq_iff_eq, Option.some.injEq]
    split
    · rename_i hsettled
      refine ⟨fun h => ?_, fun h => congrArg Except.ok h.1⟩
      cases h
      exact ⟨rfl, hsettled⟩
    · rename_i hnot
      refine ⟨nofun, fun h => absurd ?_ hnot⟩
      rw [h.1]
      exact h.2
  · rename_i hnone
    simp [hnone]

theorem closedArgs_grow (hplain : c.overrides = []) {slots : List Slot}
    (hslots : ∀ s ∈ slots, ∃ F, ts.Unfolds s.fixed F) (hgrow : ts.Grows us) :
    k.closedArgs (c.view us) slots = k.closedArgs (c.view ts) slots := by
  refine mapM_ext fun s hs => ?_
  obtain ⟨F, hF⟩ := hslots s hs
  simp only [settle, Slot.isSettled, c.mentionsAny_grow hplain hF hgrow]
  rfl

theorem checkCount_eq_ok_iff : k.checkCount σ = .ok () ↔ ∀ p ∈ k.free, σ.contains p := by
  rw [← List.countP_eq_length]
  simp only [checkCount]
  split
  · rename_i hcount
    exact ⟨fun _ => hcount, fun _ => rfl⟩
  · rename_i hcount
    exact ⟨nofun, fun h => absurd h hcount⟩

/-! ## The arguments -/

/-- A slot that is settled after filling carries what `h` makes of its argument. -/
theorem of_settled (hplain : c.overrides = []) (hrigid : Rigid k.free h) (hF : ts.Unfolds a F)
    (hgrow : ts.Grows us)
    (hopen : ∀ t, (∃ p ∈ k.free, p ∈ F.params) → found.get? ⟨k.definition, i⟩ = some t →
      us.Unfolds t (F.subst h))
    (hfilled : Filled us k.free h
      ⟨i, a, (c.view ts).candidateFor k.free a (found.get? ⟨k.definition, i⟩)⟩ s')
    (hsettle : k.settle (c.view us) s' = .ok t) :
    us.Unfolds t (F.subst h) ∧
      (∀ t, found.get? ⟨k.definition, i⟩ = some t → us.Unfolds t (F.subst h)) ∧
      (found.get? ⟨k.definition, i⟩ = none → ∀ p ∈ k.free, p ∉ (F.subst h).params) := by
  obtain ⟨hcandidate, hagree⟩ := settle_eq_ok_iff.1 hsettle
  have hself : (¬∃ p ∈ k.free, p ∈ F.params) → F.subst h = F := fun hclosed =>
    Tree.subst_eq_self fun p hp => hrigid p fun hfree => hclosed ⟨p, hfree, hp⟩
  have hmentions : (c.view ts).mentionsAny a k.free ↔ ∃ p ∈ k.free, p ∈ F.params :=
    c.mentionsAny_iff hplain hF
  have hF' := hF.grow hgrow
  unfold View.candidateFor at hfilled
  cases hfound : found.get? ⟨k.definition, i⟩ with
  | some t' =>
    rw [hfound] at hfilled
    cases hfilled with
    | filled _ _ hnone => cases hnone
    | kept =>
      cases hcandidate
      have ht : us.Unfolds t (F.subst h) := by
        by_cases hclosed : ∃ p ∈ k.free, p ∈ F.params
        · exact hopen t hclosed hfound
        · rw [c.mentionsAny_iff hplain hF'] at hagree
          rw [hself hclosed, hagree.resolve_right hclosed]
          exact hF'
      exact ⟨ht, fun t'' ht'' => Option.some.inj ht'' ▸ ht, nofun⟩
  | none =>
    rw [hfound] at hfilled
    by_cases hclosed : ∃ p ∈ k.free, p ∈ F.params
    · simp only [if_pos (hmentions.2 hclosed)] at hfilled
      cases hfilled with
      | kept => cases hcandidate
      | filled hG ht _ hnot =>
        cases hcandidate
        obtain rfl := hG.unique hF'
        exact ⟨ht, nofun, fun _ => hnot⟩
    · simp only [if_neg fun hm => hclosed (hmentions.1 hm)] at hfilled
      cases hfilled with
      | filled _ _ hnone => cases hnone
      | kept =>
        cases hcandidate
        refine ⟨(hself hclosed).symm ▸ hF', nofun, fun _ p hp hmem => ?_⟩
        rw [hself hclosed] at hmem
        exact hclosed ⟨p, hp, hmem⟩

/-- Where `h` is consistent with the types found, every slot is settled after filling. -/
theorem exists_settle_eq_ok (hplain : c.overrides = []) (hrigid : Rigid k.free h)
    (hF : ts.Unfolds a F) (hgrow : ts.Grows us)
    (hsome : ∀ t, found.get? ⟨k.definition, i⟩ = some t → ts.Unfolds t (F.subst h))
    (hnone : found.get? ⟨k.definition, i⟩ = none → ∀ p ∈ k.free, p ∉ (F.subst h).params)
    (hfilled : Filled us k.free h
      ⟨i, a, (c.view ts).candidateFor k.free a (found.get? ⟨k.definition, i⟩)⟩ s') :
    ∃ t, k.settle (c.view us) s' = .ok t := by
  have hself : (¬∃ p ∈ k.free, p ∈ F.params) → F.subst h = F := fun hclosed =>
    Tree.subst_eq_self fun p hp => hrigid p fun hfree => hclosed ⟨p, hfree, hp⟩
  have hmentions : (c.view ts).mentionsAny a k.free ↔ ∃ p ∈ k.free, p ∈ F.params :=
    c.mentionsAny_iff hplain hF
  have hF' := hF.grow hgrow
  have hmentions' : (c.view us).mentionsAny a k.free ↔ ∃ p ∈ k.free, p ∈ F.params :=
    c.mentionsAny_iff hplain hF'
  simp only [settle_eq_ok_iff]
  unfold View.candidateFor at hfilled
  cases hfound : found.get? ⟨k.definition, i⟩ with
  | some t =>
    rw [hfound] at hfilled
    cases hfilled with
    | filled _ _ hnone => cases hnone
    | kept =>
      refine ⟨t, rfl, ?_⟩
      by_cases hclosed : ∃ p ∈ k.free, p ∈ F.params
      · exact .inr (hmentions'.2 hclosed)
      · have ht := hsome t hfound
        rw [hself hclosed] at ht
        exact .inl (ht.inj hF)
  | none =>
    rw [hfound] at hfilled
    by_cases hclosed : ∃ p ∈ k.free, p ∈ F.params
    · simp only [if_pos (hmentions.2 hclosed)] at hfilled
      cases hfilled with
      | kept hG hopen =>
        obtain rfl := hG.unique hF'
        obtain ⟨p, hp, hmem⟩ := hopen rfl
        exact absurd hmem (hnone hfound p hp)
      | filled => exact ⟨_, rfl, .inr (hmentions'.2 hclosed)⟩
    · simp only [if_neg fun hm => hclosed (hmentions.1 hm)] at hfilled
      cases hfilled with
      | filled _ _ hnone => cases hnone
      | kept => exact ⟨a, rfl, .inl rfl⟩

/-- `xs` are the implementation's arguments under `σ`, which is `h` written out; constraints of free
parameters have counterparts above what these become. -/
structure Solution (c : Catalog) (base : Types) (k : Closing) (ts : Types) (Fs : List Tree)
    (found : Substitution) (xs : List TypeId) (σ : Substitution) (h : Param → Tree) : Prop where
  unfolds : σ.Unfolds ts h
  domain : ∀ p, σ.contains p ↔ p ∈ k.free
  args : List.Forall₂ ts.Unfolds xs (Fs.map (Tree.subst h))
  consistent : k.Consistent ts Fs found h
  answered : ∀ p ∈ k.free, Unifier.Answered c base k.free (.assign k.definition Fs) p (h p)

/-- `h` is consistent with the types found and fixed by them, and inference has nothing to add. -/
structure Solvable (c : Catalog) (base : Types) (k : Closing) (ts : Types) (Fs : List Tree)
    (found : Substitution) (h : Param → Tree) : Prop where
  rigid : Rigid k.free h
  consistent : k.Consistent ts Fs found h
  reached : k.Reached Fs found
  supported : ∀ p ∈ k.free,
    Unifier.Supported c base k.free (.assign k.definition Fs) (· ∈ k.free) p (h p)

theorem Consistent.grow (hk : k.Consistent ts Fs found h) (hgrow : ts.Grows us) :
    k.Consistent us Fs found h := fun i F hF =>
  ⟨fun t ht => ((hk i F hF).1 t ht).grow hgrow, (hk i F hF).2⟩

theorem Solvable.of_grows (hk : k.Solvable c base us Fs found h) (hfound : ∃ f, found.Unfolds ts f)
    (hgrow : ts.Grows us) : k.Solvable c base ts Fs found h where
  rigid := hk.rigid
  consistent i F hF := by
    obtain ⟨f, hf⟩ := hfound
    refine ⟨fun t ht => ?_, (hk.consistent i F hF).2⟩
    have htT := (hf _).1 t ht
    rwa [((hk.consistent i F hF).1 t ht).unique (htT.grow hgrow)]
  reached := hk.reached
  supported := hk.supported

theorem Solution.grow {xs : List TypeId} (hk : k.Solution c base ts Fs found xs σ h)
    (hgrow : ts.Grows us) : k.Solution c base us Fs found xs σ h :=
  ⟨hk.unfolds.grow hgrow, hk.domain, Types.forall₂_unfolds_grow hk.args hgrow,
    hk.consistent.grow hgrow, hk.answered⟩

theorem Solution.rigid {xs : List TypeId} (hk : k.Solution c base ts Fs found xs σ h) : Rigid k.free h := by
  intro p hp
  refine (hk.unfolds p).2 ?_
  rw [← Option.not_isSome_iff_eq_none]
  exact fun hsome => hp ((hk.domain p).1 hsome)

/-- Substitutions that are consistent with the same types are equal where these reach every free
parameter. -/
theorem Consistent.unique {h' : Param → Tree} (hreached : k.Reached Fs found)
    (hrigid : Rigid k.free h) (hrigid' : Rigid k.free h') (hk : k.Consistent ts Fs found h)
    (hk' : k.Consistent ts Fs found h') : h = h' := by
  funext p
  by_cases hp : p ∈ k.free
  · obtain ⟨-, i, F, t, hF, hpF, ht⟩ := hreached p hp
    exact Tree.eq_of_subst_eq (((hk i F hF).1 t ht).unique ((hk' i F hF).1 t ht)) hpF
  · rw [hrigid p hp, hrigid' p hp]

theorem settles_lift_bind {ε α β : Type} {m : Engine α} {f : α → ExceptT ε Engine β}
    {Q : Except ε β → Types → Bool → Prop} (hm : Engine.Settles (m >>= fun a => (f a).run) ts Q) :
    Engine.Settles ((monadLift m : ExceptT ε Engine α) >>= f).run ts Q :=
  (ExceptT.run_bind_lift m f : ((monadLift m : ExceptT ε Engine α) >>= f).run = _) ▸ hm

/-- Filling and settling give the arguments under `h`, where they succeed, and they succeed where `h`
is consistent with the types found. -/
theorem settles_fill (hplain : c.overrides = []) (hargs : List.Forall₂ ts.Unfolds k.args Fs)
    (hgrow : ts.Grows us) (hσ : σ.Unfolds us h) (hrigid : Rigid k.free h)
    (hopen : ∀ (i : Nat) F t, Fs[i]? = some F → (∃ p ∈ k.free, p ∈ F.params) →
      found.get? ⟨k.definition, i⟩ = some t → us.Unfolds t (F.subst h)) :
    Engine.Settles (do
        let slots ← (k.slots (c.view ts) found).mapM (k.fillSlot c σ)
        Engine.query c (k.closedArgs · slots)) us fun r vs cut =>
      (∀ xs, r = .ok xs → List.Forall₂ vs.Unfolds xs (Fs.map (Tree.subst h)) ∧
        k.Consistent vs Fs found h) ∧
      cut = false ∧ (k.Consistent ts Fs found h → ∃ xs, r = .ok xs) := by
  have hfixed : ∀ s ∈ k.slots (c.view ts) found, ∃ F, us.Unfolds s.fixed F := by
    intro s hs
    obtain ⟨i, a, ha, rfl⟩ := mem_slots.1 hs
    obtain ⟨F, -, hF⟩ := exists_getElem?_of_forall₂ hargs ha
    exact ⟨F, hF.grow hgrow⟩
  refine (Engine.Settles.mapM (R := fun vs s s' => Filled vs k.free h s s')
    (fun _ _ _ _ hvs hs => hs.grow hvs) fun s hs vs hvs => ?_).bind ?_
  · obtain ⟨F, hF⟩ := hfixed s hs
    exact settles_fillSlot hplain (hσ.grow hvs) (hF.grow hvs)
  rintro slots vs _ hvs ⟨hslots, rfl⟩
  have hgrow' := hgrow.trans hvs
  have hfilled : ∀ (i : Nat) s', slots[i]? = some s' → ∃ a F, Fs[i]? = some F ∧ ts.Unfolds a F ∧
      Filled vs k.free h
        ⟨i, a, (c.view ts).candidateFor k.free a (found.get? ⟨k.definition, i⟩)⟩ s' := by
    intro i s' hs'
    obtain ⟨s, hs, hs'⟩ := exists_getElem?_of_forall₂ hslots.flip hs'
    rw [getElem?_slots, Option.map_eq_some_iff] at hs
    obtain ⟨a, ha, rfl⟩ := hs
    obtain ⟨F, hF, haF⟩ := exists_getElem?_of_forall₂ hargs ha
    exact ⟨a, F, hF, haF, hs'⟩
  have hlen : slots.length = Fs.length := by
    rw [← hslots.length_eq, Closing.slots, List.length_mapIdx, hargs.length_eq]
  refine Engine.Settles.query c (fun ws hws => closedArgs_grow hplain (fun s' hs' => ?_) hws)
    ⟨fun xs hxs => ?_, rfl, fun hk => ?_⟩
  · obtain ⟨i, hs'⟩ := List.mem_iff_getElem?.1 hs'
    obtain ⟨a, F, -, hF, hfilled⟩ := hfilled i s' hs'
    cases hfilled <;> exact ⟨F, hF.grow hgrow'⟩
  · have hsettled := mapM_eq_ok_iff.1 hxs
    have hall : ∀ (i : Nat) F t, Fs[i]? = some F → xs[i]? = some t → vs.Unfolds t (F.subst h) ∧
        (∀ t, found.get? ⟨k.definition, i⟩ = some t → vs.Unfolds t (F.subst h)) ∧
        (found.get? ⟨k.definition, i⟩ = none → ∀ p ∈ k.free, p ∉ (F.subst h).params) := by
      intro i F t hF ht
      obtain ⟨s', hs', hsettle⟩ := exists_getElem?_of_forall₂ hsettled.flip ht
      obtain ⟨a, F', hF', haF, hfilled⟩ := hfilled i s' hs'
      obtain rfl := Option.some.inj (hF'.symm.trans hF)
      exact of_settled hplain hrigid haF hgrow'
        (fun t hmentions ht => (hopen i _ t hF hmentions ht).grow hvs) hfilled hsettle
    have hlen' : xs.length = Fs.length := hsettled.length_eq.symm.trans hlen
    constructor
    · refine forall₂_of_getElem? (by rw [List.length_map, hlen']) fun i t Y ht hY => ?_
      rw [List.getElem?_map, Option.map_eq_some_iff] at hY
      obtain ⟨F, hF, rfl⟩ := hY
      exact (hall i F t hF ht).1
    · intro i F hF
      have hlt : i < xs.length := hlen' ▸ (List.getElem?_eq_some_iff.1 hF).1
      exact (hall i F _ hF (List.getElem?_eq_getElem hlt)).2
  · have hsettle : ∀ s' ∈ slots, ∃ t, k.settle (c.view vs) s' = .ok t := by
      intro s' hs'
      obtain ⟨i, hs'⟩ := List.mem_iff_getElem?.1 hs'
      obtain ⟨a, F, hF, haF, hfilled⟩ := hfilled i s' hs'
      exact exists_settle_eq_ok hplain hrigid haF hgrow' (hk i F hF).1 (hk i F hF).2 hfilled
    obtain ⟨xs, hxs⟩ := forall₂_of_forall_exists hsettle
    exact ⟨xs, mapM_eq_ok_iff.2 hxs⟩

/-- The arguments are a solution, and what holds of the bindings of the free parameters holds of the
substitution in it. -/
theorem settles_argsFor {P : Types → Substitution → Prop} (hc : c.Grounded base)
    (hbase : base.Grows ts) (hargs : List.Forall₂ ts.Unfolds k.args Fs)
    (hfound : ∃ f, found.Unfolds ts f) (hP : ∀ us vs σ, us.Grows vs → P us σ → P vs σ)
    (hbind : Engine.Settles (k.bindFree c (k.slots (c.view ts) found)) ts fun r us _ =>
      ∀ σ, r = .ok σ → P us σ) :
    Engine.Settles (k.argsFor c found).run ts fun r us cut =>
      (∀ xs, r = .ok xs → ∃ σ h, k.Solution c base us Fs found xs σ h ∧ P us σ) ∧
      (cut = false → ∀ h, k.Solvable c base ts Fs found h → ∃ xs, r = .ok xs) := by
  unfold argsFor
  refine settles_lift_bind (.query_bind c (fun vs hvs => slots_grow hc.plain hargs hvs) ?_)
  refine settles_lift_bind (((settles_bindFree hc hbase hargs hfound).and hbind).bind ?_)
  rintro r us cut hgrow ⟨⟨hsound, hcomplete⟩, hbound⟩
  cases r with
  | error e =>
    refine .pure ⟨nofun, fun hcut h hk => ?_⟩
    obtain ⟨σ, hσ, -⟩ := hcomplete (Bool.or_eq_false_iff.1 hcut).1 h hk.rigid hk.consistent hk.reached
      hk.supported
    cases hσ
  | ok σ =>
    obtain ⟨hext, hsolves, hanswered⟩ := hsound σ rfl
    have hfree : ∀ p, σ.contains p → p ∈ k.free := fun p =>
      Substitution.of_contains_of_extends_empty hext
    obtain ⟨h, hh⟩ := Substitution.exists_unfolds_of_extends (Substitution.unfolds_empty us) hext
    rw [ExceptT.run_bind, ExceptT.run_mk, pure_bind]
    cases hcount : k.checkCount σ with
    | error e =>
      refine .pure ⟨nofun, fun hcut h' hk => ?_⟩
      obtain ⟨_, hσ, -, hcontains⟩ := hcomplete (Bool.or_eq_false_iff.1 hcut).1 h' hk.rigid
        hk.consistent hk.reached hk.supported
      cases hσ
      exact absurd (checkCount_eq_ok_iff.2 fun p hp => (hcontains p).2 hp) (by simp [hcount])
    | ok _ =>
      have hdomain : ∀ p, σ.contains p ↔ p ∈ k.free := fun p =>
        ⟨hfree p, checkCount_eq_ok_iff.1 hcount p⟩
      have hrigid : Rigid k.free h := by
        intro p hp
        refine (hh p).2 ?_
        rw [← Option.not_isSome_iff_eq_none]
        exact fun hsome => hp (hfree p hsome)
      have hopen : ∀ (i : Nat) F t, Fs[i]? = some F → (∃ p ∈ k.free, p ∈ F.params) →
          found.get? ⟨k.definition, i⟩ = some t → us.Unfolds t (F.subst h) := by
        intro i F t hF hmentions ht
        obtain ⟨f, hf⟩ := hfound
        have htT := (hf _).1 t ht
        rw [(hsolves i F t _ hF hmentions ht htT).subst_eq h hh.agrees hrigid]
        exact htT.grow hgrow
      refine settles_lift_bind ((settles_fill hc.plain hargs hgrow hh hrigid hopen).mono ?_)
      rintro r vs cut' hvs ⟨hfilled, rfl, hfills⟩
      refine ⟨fun xs hxs => ?_, fun hcut h' hk => ?_⟩
      · obtain ⟨hxs, hconsistent⟩ := hfilled xs hxs
        refine ⟨σ, h, ⟨hh.grow hvs, hdomain, hxs, hconsistent, fun p hp => ?_⟩,
          hP us vs σ hvs (hbound σ rfl)⟩
        obtain ⟨t, ht⟩ := Option.isSome_iff_exists.1 ((hdomain p).2 hp)
        exact hanswered p t (h p) ht ((hh p).1 t ht)
      · obtain ⟨_, hσ, hagrees, -⟩ := hcomplete (Bool.or_eq_false_iff.1 hcut).1 h' hk.rigid
          hk.consistent hk.reached hk.supported
        cases hσ
        have heq : h' = h := by
          funext p
          by_cases hp : p ∈ k.free
          · exact hagrees.eq_of_contains hh.agrees ((hdomain p).2 hp)
          · rw [hk.rigid p hp, hrigid p hp]
        exact hfills (heq ▸ hk.consistent)

/-! ## The closed type -/

variable {abstraction closed : TypeId} {T : Tree} {xs : List TypeId}

/-- The closed type is constructed from `xs`, and the abstraction accepts it, here and on every larger
store. -/
structure Checks (c : Catalog) (k : Closing) (us : Types) (abstraction : TypeId) (xs : List TypeId)
    (closed : TypeId) : Prop where
  constructed : Engine.Lasts (Engine.construct c k.definition xs) us (.ok closed)
  accepted : Engine.Lasts (Engine.isAssignable c abstraction closed) us true

theorem Checks.grow (h : k.Checks c ts abstraction xs closed) (hgrow : ts.Grows us) :
    k.Checks c us abstraction xs closed :=
  ⟨h.constructed.grow hgrow, h.accepted.grow hgrow⟩

theorem settles_checkClosed {Xs : List Tree} (hc : c.Grounded base) (hbase : base.Grows ts)
    (hT : ts.Unfolds abstraction T) (hxs : List.Forall₂ ts.Unfolds xs Xs) :
    Engine.Settles (k.checkClosed c abstraction xs).run ts fun r us cut =>
      (∀ closed, r = .ok closed → us.Unfolds closed (.apply k.definition Xs) ∧
        k.Checks c us abstraction xs closed) ∧
      (cut = false → Constructible c ts k.definition Xs →
        Accepts c base T (.apply k.definition Xs) → ∃ closed, r = .ok closed) := by
  unfold checkClosed
  have hconstruct := ((Engine.settles_construct (d := k.definition) hc hbase hxs).lasts).and_imp
    fun h : Constructible c ts k.definition Xs => h ts xs (.refl ts) hxs
  refine settles_lift_bind (hconstruct.bind ?_)
  rintro r us cut hgrow ⟨⟨⟨hsound, -⟩, hlasts⟩, hcomplete⟩
  cases r with
  | error e =>
    refine .pure ⟨nofun, fun hcut hk _ => ?_⟩
    obtain ⟨t, ht⟩ := hcomplete hk (Bool.or_eq_false_iff.1 hcut).1
    cases ht
  | ok closed =>
    obtain ⟨hclosed, -⟩ := hsound closed rfl
    have haccept := (Engine.settles_isAssignable hc (hbase.trans hgrow) (hT.grow hgrow) hclosed).lasts
    refine settles_lift_bind (haccept.bind ?_)
    rintro accepted vs cut' hvs ⟨⟨-, hcomplete⟩, hlasts'⟩
    cases accepted with
    | true =>
      refine .pure ⟨fun t ht => ?_, fun _ _ _ => ⟨closed, rfl⟩⟩
      cases ht
      exact ⟨hclosed.grow hvs, hlasts.grow hvs, hlasts'⟩
    | false =>
      refine .pure ⟨nofun, fun hcut _ haccepts => ?_⟩
      simp only [Bool.or_eq_false_iff] at hcut
      exact absurd (hcomplete hcut.2.1 haccepts) nofun

/-- What closes the implementation is its instance under a substitution of its free parameters, of
which holds what holds of their bindings.  An instance that is consistent with the types found,
constructible and accepted by the abstraction closes it, unless a guard objects. -/
theorem settles_close_of {P : Types → Substitution → Prop} (hc : c.Grounded base)
    (hbase : base.Grows ts) (hT : ts.Unfolds abstraction T)
    (hargs : List.Forall₂ ts.Unfolds k.args Fs) (hfound : ∃ f, found.Unfolds ts f)
    (hP : ∀ us vs σ, us.Grows vs → P us σ → P vs σ)
    (hbind : Engine.Settles (k.bindFree c (k.slots (c.view ts) found)) ts fun r us _ =>
      ∀ σ, r = .ok σ → P us σ) :
    Engine.Settles (k.close c abstraction found).run ts fun r us cut =>
      (∀ closed, r = .ok closed → ∃ xs σ h, k.Solution c base us Fs found xs σ h ∧ P us σ ∧
        us.Unfolds closed (.apply k.definition (Fs.map (Tree.subst h))) ∧
        k.Checks c us abstraction xs closed) ∧
      (cut = false → ∀ h, k.Solvable c base ts Fs found h →
        Constructible c ts k.definition (Fs.map (Tree.subst h)) →
        Accepts c base T (.apply k.definition (Fs.map (Tree.subst h))) →
        ∃ closed, r = .ok closed ∧
          us.Unfolds closed (.apply k.definition (Fs.map (Tree.subst h)))) := by
  unfold close
  rw [ExceptT.run_bind]
  refine (settles_argsFor hc hbase hargs hfound hP hbind).bind ?_
  rintro (e | xs) us cut hgrow ⟨hsound, hcomplete⟩
  · refine .pure ⟨nofun, fun hcut h hk _ _ => ?_⟩
    obtain ⟨xs, hxs⟩ := hcomplete (Bool.or_eq_false_iff.1 hcut).1 h hk
    cases hxs
  · obtain ⟨σ, h, hsolution, hσ⟩ := hsound xs rfl
    refine (settles_checkClosed hc (hbase.trans hgrow) (hT.grow hgrow) hsolution.args).mono ?_
    rintro r vs cut' hvs ⟨hchecks, hpasses⟩
    refine ⟨fun closed hr => ?_, fun hcut h' hk hconstructible haccepts => ?_⟩
    · obtain ⟨hclosed, hchecks⟩ := hchecks closed hr
      exact ⟨xs, σ, h, hsolution.grow hvs, hP us vs σ hvs hσ, hclosed, hchecks⟩
    · obtain rfl := Consistent.unique hk.reached hsolution.rigid hk.rigid hsolution.consistent
        (hk.consistent.grow hgrow)
      obtain ⟨closed, hr⟩ := hpasses (Bool.or_eq_false_iff.1 hcut).2
        (hconstructible.grow hgrow) haccepts
      exact ⟨closed, hr, (hchecks closed hr).1⟩

theorem settles_close (hc : c.Grounded base) (hbase : base.Grows ts)
    (hT : ts.Unfolds abstraction T) (hargs : List.Forall₂ ts.Unfolds k.args Fs)
    (hfound : ∃ f, found.Unfolds ts f) :
    Engine.Settles (k.close c abstraction found).run ts fun r us cut =>
      (∀ closed, r = .ok closed → ∃ xs σ h, k.Solution c base us Fs found xs σ h ∧
        us.Unfolds closed (.apply k.definition (Fs.map (Tree.subst h))) ∧
        k.Checks c us abstraction xs closed) ∧
      (cut = false → ∀ h, k.Solvable c base ts Fs found h →
        Constructible c ts k.definition (Fs.map (Tree.subst h)) →
        Accepts c base T (.apply k.definition (Fs.map (Tree.subst h))) →
        ∃ closed, r = .ok closed ∧
          us.Unfolds closed (.apply k.definition (Fs.map (Tree.subst h)))) := by
  refine (settles_close_of (P := fun _ _ => True) hc hbase hT hargs hfound (fun _ _ _ _ _ => trivial)
    ((settles_bindFree hc hbase hargs hfound).mono fun _ _ _ _ _ _ _ => trivial)).mono ?_
  rintro r us cut - ⟨hsound, hcomplete⟩
  refine ⟨fun closed hr => ?_, hcomplete⟩
  obtain ⟨xs, σ, h, hsolution, -, hclosed, hchecks⟩ := hsound closed hr
  exact ⟨xs, σ, h, hsolution, hclosed, hchecks⟩

end Closing

end Generics
