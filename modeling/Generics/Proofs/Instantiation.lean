import Generics.Instantiate
import Generics.Proofs.Settling

/-!
# Instantiation is substitution

On types that unfold to trees, to instantiate is to substitute: the answer unfolds to the tree with
its parameters replaced.  The walk shares images and reuses what did not change; none of that shows
in the tree, and where the answer is known already nothing is added.
-/

namespace Generics

namespace Substitution

variable {ts us : Types} {σ : Substitution} {f : Param → Tree}

/-- The images under `σ`, written out in full, are given by `f`. -/
def Unfolds (ts : Types) (σ : Substitution) (f : Param → Tree) : Prop :=
  ∀ p, (∀ t, σ.get? p = some t → ts.Unfolds t (f p)) ∧ (σ.get? p = none → f p = .param p)

theorem Unfolds.grow (h : σ.Unfolds ts f) (hgrow : ts.Grows us) : σ.Unfolds us f := fun p =>
  ⟨fun t ht => ((h p).1 t ht).grow hgrow, (h p).2⟩

theorem unfolds_empty (ts : Types) : empty.Unfolds ts .param := fun _ => ⟨nofun, fun _ => rfl⟩

/-- The images of the parameters in `T`, written out in full, are given by `f`. -/
def UnfoldsOn (ts : Types) (σ : Substitution) (f : Param → Tree) (T : Tree) : Prop :=
  ∀ p ∈ T.params, (∀ t, σ.get? p = some t → ts.Unfolds t (f p)) ∧ (σ.get? p = none → f p = .param p)

theorem Unfolds.on (h : σ.Unfolds ts f) (T : Tree) : σ.UnfoldsOn ts f T := fun p _ => h p

theorem UnfoldsOn.grow {T : Tree} (h : σ.UnfoldsOn ts f T) (hgrow : ts.Grows us) :
    σ.UnfoldsOn us f T := fun p hp =>
  ⟨fun t ht => ((h p hp).1 t ht).grow hgrow, (h p hp).2⟩

theorem UnfoldsOn.of_mem_args {d : DefId} {Ts : List Tree} (h : σ.UnfoldsOn ts f (.app d Ts))
    {A : Tree} (hA : A ∈ Ts) : σ.UnfoldsOn ts f A := fun p hp =>
  h p (by rw [Tree.params_app]; exact List.mem_flatMap.2 ⟨A, hA, hp⟩)

theorem UnfoldsOn.subst_eq_self_of_isEmpty {T : Tree} (h : σ.UnfoldsOn ts f T) (he : σ.isEmpty) :
    T.subst f = T := by
  obtain ⟨entries⟩ := σ
  obtain rfl : entries = [] := by simpa [isEmpty] using he
  exact Tree.subst_eq_self fun p hp => (h p hp).2 rfl

theorem get?_ofArgs_of_owner_ne {d : DefId} (args : List TypeId) {p : Param} (h : p.owner ≠ d) :
    (ofArgs d args).get? p = none := by
  rw [← Option.not_isSome_iff_eq_none]
  change ¬(ofArgs d args).contains p
  rw [contains_iff_mem_domain]
  simp only [domain, ofArgs, List.mem_map, List.mem_mapIdx]
  rintro ⟨_, ⟨i, _, rfl⟩, rfl⟩
  exact h rfl

theorem unfolds_ofArgs {args : List TypeId} {Ts : List Tree} (d : DefId)
    (hargs : List.Forall₂ ts.Unfolds args Ts) : (ofArgs d args).Unfolds ts (Tree.assign d Ts) := by
  rintro ⟨e, i⟩
  by_cases he : e = d
  · subst he
    simp only [get?_ofArgs, Tree.assign, if_true]
    constructor
    · intro t ht
      obtain ⟨T, hT, h⟩ := exists_getElem?_of_forall₂ hargs ht
      rwa [hT]
    · intro hi
      rw [getElem?_eq_none_of_forall₂ hargs hi]
      rfl
  · rw [get?_ofArgs_of_owner_ne args (p := ⟨e, i⟩) he]
    exact ⟨nofun, fun _ => if_neg he⟩

theorem exists_unfolds (h : ∀ p t, σ.get? p = some t → ∃ T, ts.Unfolds t T) :
    ∃ f, σ.Unfolds ts f := by
  have himage : ∀ p, ∃ T, (∀ t, σ.get? p = some t → ts.Unfolds t T) ∧
      (σ.get? p = none → T = .param p) := by
    intro p
    cases hp : σ.get? p with
    | none => exact ⟨.param p, nofun, fun _ => rfl⟩
    | some t =>
      obtain ⟨T, hT⟩ := h p t hp
      exact ⟨T, fun u hu => Option.some.inj hu ▸ hT, nofun⟩
  choose f hf using himage
  exact ⟨f, hf⟩

end Substitution

namespace Engine

variable {c : Catalog} {ts us : Types} {σ : Substitution} {f : Param → Tree} {t : TypeId} {T : Tree}
  {images : Images}

/-- What the walk remembers are images. -/
def Images.Sound (images : Images) (ts : Types) (f : Param → Tree) : Prop :=
  ∀ t u, images[t]? = some u → ∃ T, ts.Unfolds t T ∧ ts.Unfolds u (T.subst f)

theorem Images.Sound.grow (h : images.Sound ts f) (hgrow : ts.Grows us) : images.Sound us f := by
  intro t u htu
  obtain ⟨T, hT, hu⟩ := h t u htu
  exact ⟨T, hT.grow hgrow, hu.grow hgrow⟩

theorem Images.Sound.insert {u : TypeId} (h : images.Sound ts f) (ht : ts.Unfolds t T)
    (hu : ts.Unfolds u (T.subst f)) : Images.Sound (images.insert t u) ts f := by
  intro t' u' h'
  rw [Std.TreeMap.getElem?_insert] at h'
  split at h'
  · rename_i heq
    obtain rfl := Std.LawfulEqCmp.eq_of_compare heq
    cases h'
    exact ⟨T, ht, hu⟩
  · exact h t' u' h'

/-- The answer of a walk: the image, and sound memory; where the image is known nothing is added. -/
def Walked (ts : Types) (f : Param → Tree) (T : Tree) (r : TypeId × Images) (us : Types)
    (cut : Bool) : Prop :=
  us.Unfolds r.1 (T.subst f) ∧ Images.Sound r.2 us f ∧ cut = false ∧
    ∀ w, ts.Unfolds w (T.subst f) → us = ts

theorem settles_mapM_walk {walk : TypeId → StateT Images Engine TypeId} {args : List TypeId}
    {Ts : List Tree} (hargs : List.Forall₂ ts.Unfolds args Ts)
    (hwalk : ∀ a, ∀ A ∈ Ts, ∀ us images, ts.Grows us → us.Unfolds a A →
      Images.Sound images us f → Settles ((walk a).run images) us (Walked us f A))
    (himages : images.Sound ts f) :
    Settles ((args.mapM walk).run images) ts fun r us cut =>
      List.Forall₂ us.Unfolds r.1 (Ts.map (Tree.subst f)) ∧ Images.Sound r.2 us f ∧ cut = false ∧
        ((∃ ws, List.Forall₂ ts.Unfolds ws (Ts.map (Tree.subst f))) → us = ts) := by
  induction args generalizing ts Ts images with
  | nil =>
    cases hargs
    simp only [List.mapM_nil, StateT.run_pure]
    exact .pure ⟨.nil, himages, rfl, fun _ => rfl⟩
  | cons a args ih =>
    cases hargs with
    | @cons _ A _ Ts ha hargs =>
      simp only [List.mapM_cons, StateT.run_bind, StateT.run_pure, List.map_cons]
      refine (hwalk a A (List.mem_cons_self ..) ts images (.refl ts) ha himages).bind ?_
      rintro ⟨u, images⟩ us _ hgrow ⟨hu, himages, rfl, hsame⟩
      refine (ih (Types.forall₂_unfolds_grow hargs hgrow) (fun a A hA vs images hvs =>
        hwalk a A (List.mem_cons_of_mem _ hA) vs images (hgrow.trans hvs)) himages).bind ?_
      rintro ⟨rs, images⟩ vs _ hgrow' ⟨hrs, himages, rfl, hsame'⟩
      refine .pure ⟨.cons (hu.grow hgrow') hrs, himages, rfl, ?_⟩
      rintro ⟨_, hws⟩
      cases hws with
      | cons hw hws =>
        obtain rfl := hsame _ hw
        exact hsame' ⟨_, hws⟩

/-- The image of a node, where `walk` gives the images of its arguments. -/
theorem settles_imageOf {walk : TypeId → StateT Images Engine TypeId} {node : Node}
    (ht : ts.Unfolds t T) (hnode : ts.get? t = some node) (hσ : σ.UnfoldsOn ts f T)
    (hwalk : ∀ d Ts, T = .app d Ts → ∀ a, ∀ A ∈ Ts, ∀ us images, ts.Grows us → us.Unfolds a A →
      Images.Sound images us f → Settles ((walk a).run images) us (Walked us f A))
    (himages : images.Sound ts f) :
    Settles ((imageOf σ walk t (some node)).run images) ts (Walked ts f T) := by
  cases ht with
  | named h =>
    obtain rfl := Option.some.inj (hnode.symm.trans h)
    simp only [imageOf, StateT.run_pure]
    exact .pure ⟨by simpa using .named h, himages, rfl, fun _ _ => rfl⟩
  | @param _ p h =>
    obtain rfl := Option.some.inj (hnode.symm.trans h)
    simp only [imageOf, StateT.run_pure]
    refine .pure ⟨?_, himages, rfl, fun _ _ => rfl⟩
    rw [Tree.subst_param]
    cases hp : σ.get? p with
    | none =>
      rw [(hσ p (by simp)).2 hp]
      exact .param h
    | some u => exact (hσ p (by simp)).1 u hp
  | @app _ d args Ts h hargs =>
    obtain rfl := Option.some.inj (hnode.symm.trans h)
    simp only [imageOf, StateT.run_bind]
    refine (settles_mapM_walk hargs (hwalk d Ts rfl) himages).bind ?_
    rintro ⟨rs, images⟩ us _ hgrow ⟨hrs, himages, rfl, hsame⟩
    have hback : ∀ w, ts.Unfolds w ((Tree.app d Ts).subst f) → us = ts := fun w hw => by
      rw [Tree.subst_app] at hw
      obtain ⟨ws, -, hws⟩ := hw.exists_app
      exact hsame ⟨ws, hws⟩
    split
    · rename_i heq
      simp only [StateT.run_pure]
      obtain rfl : rs = args := heq
      exact .pure ⟨by simpa using .app (hgrow _ _ h) hrs, himages, rfl, hback⟩
    · rename_i hne
      have hTs : Ts.map (Tree.subst f) ≠ [] := by
        rintro hnil
        obtain rfl := List.map_eq_nil_iff.1 hnil
        cases hargs
        cases hrs
        exact hne rfl
      have hu := Types.unfolds_intern_app d hrs
      rw [Tree.apply_of_ne_nil hTs] at hu
      simp only [StateT.run_monadLift]
      refine (Settles.intern (P := fun u vs cut => u = (us.intern (.app d rs)).1 ∧
        vs = (us.intern (.app d rs)).2 ∧ cut = false) ⟨rfl, rfl, rfl⟩).bind ?_
      rintro _ _ _ hgrow' ⟨rfl, rfl, rfl⟩
      refine .pure ⟨by simpa using hu, himages.grow hgrow', rfl, fun w hw => ?_⟩
      obtain rfl := hback w hw
      rw [Tree.subst_app, ← Tree.apply_of_ne_nil hTs] at hw
      rw [Types.intern_app_of_unfolds hw hrs]

theorem settles_instantiateTo (hplain : c.overrides = []) {n : Nat} (ht : ts.Unfolds t T)
    (hn : T.height ≤ n) (hσ : σ.UnfoldsOn ts f T) (himages : images.Sound ts f) :
    Settles ((instantiateTo c σ n t).run images) ts (Walked ts f T) := by
  induction n generalizing ts t T images with
  | zero => exact absurd hn (Nat.not_le_of_lt T.height_pos)
  | succ n ih =>
    simp only [instantiateTo, StateT.run_bind, StateT.run_get, pure_bind]
    cases hget : images[t]? with
    | some u =>
      simp only [StateT.run_pure]
      obtain ⟨T', hT', hu⟩ := himages t u hget
      obtain rfl := ht.unique hT'
      exact .pure ⟨hu, himages, rfl, fun _ _ => rfl⟩
    | none =>
      simp only [StateT.run_bind, StateT.run_pure, StateT.run_modify, pure_bind,
        StateT.run_monadLift, bind_assoc, monadLift_self]
      obtain ⟨node, hnode, -⟩ := ht.exists_node
      refine .query_bind c (fun vs hvs => ?_) ?_
      · simp only [c.view_node? hplain, hnode, hvs _ _ hnode]
      rw [c.view_node? hplain, hnode]
      have hwalk : ∀ d Ts, T = .app d Ts → ∀ a, ∀ A ∈ Ts, ∀ us images, ts.Grows us →
          us.Unfolds a A → Images.Sound images us f →
          Settles ((instantiateTo c σ n a).run images) us (Walked us f A) := by
        rintro d Ts rfl a A hA us images hus ha himages
        exact ih ha (Tree.height_le_of_mem hn hA) ((hσ.of_mem_args hA).grow hus) himages
      refine (settles_imageOf ht hnode hσ hwalk himages).bind ?_
      rintro ⟨u, images⟩ us _ hgrow ⟨hu, himages, rfl, hsame⟩
      exact .pure ⟨hu, himages.insert (ht.grow hgrow) hu, rfl, hsame⟩

/-- To instantiate is to substitute, and only the parameters that occur matter; where the answer is
known nothing is added. -/
theorem settles_instantiate_on (hplain : c.overrides = []) (ht : ts.Unfolds t T)
    (hσ : σ.UnfoldsOn ts f T) :
    Settles (instantiate c t σ) ts fun u us cut =>
      us.Unfolds u (T.subst f) ∧ cut = false ∧ ∀ w, ts.Unfolds w (T.subst f) → us = ts := by
  refine Settles.of_forall (R := fun u us => us.Unfolds u (T.subst f)) (fun vs hvs => ?_)
    (fun _ _ _ _ ha hb => ha.inj hb) fun _ _ _ hus ha => ha.grow hus
  unfold instantiate
  split
  · rename_i he
    refine ⟨t, vs, Runs.pure t vs, .refl vs, ?_, fun _ _ => rfl⟩
    rw [hσ.subst_eq_self_of_isEmpty he]
    exact ht.grow hvs
  · have hfuel : T.height ≤ 2 * (c.view vs).bound := by
      have := (ht.grow hvs).height_le
      have := c.size_lt_bound vs
      omega
    have hnone : Images.Sound ∅ vs f := fun _ _ h => by simp at h
    obtain ⟨r, us, _, hrun, hgrow, ⟨hu, -, rfl, hsame⟩, -⟩ :=
      settles_instantiateTo hplain (ht.grow hvs) hfuel (hσ.grow hvs) hnone
    exact ⟨r.1, us, (Runs.query c _ vs).bind (hrun.bind (Runs.pure r.1 us)), hgrow, hu, hsame⟩

/-- To instantiate is to substitute; where the answer is known nothing is added. -/
theorem settles_instantiate (hplain : c.overrides = []) (ht : ts.Unfolds t T) (hσ : σ.Unfolds ts f) :
    Settles (instantiate c t σ) ts fun u us cut =>
      us.Unfolds u (T.subst f) ∧ cut = false ∧ ∀ w, ts.Unfolds w (T.subst f) → us = ts :=
  settles_instantiate_on hplain ht (hσ.on T)

end Engine

end Generics
