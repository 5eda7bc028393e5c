import Generics.Supertypes
import Generics.Proofs.Instantiation
import Mathlib.Logic.Relation

/-!
# What lies above a type

A tree has as direct supertypes those that its definition declares, specialised to its arguments, or
its constraints if it is a parameter.  A walk through them is an ascent of trees: it passes over what it
has found already, and it goes on above a new find before it comes to what is left.  Where its guard
refuses a step, a type is found without what lies above it, and the ascent tells at the end of which path
this has happened.  The enumeration finds supertypes only, and all of them unless its guard cuts it short.
-/

namespace Generics

namespace Tree

theorem assign_nil (d : DefId) : assign d [] = param := by
  funext p
  simp [assign]

end Tree

/-- `T` is declared right above `S`. -/
inductive DirectSupertype (c : Catalog) (base : Types) (S : Tree) : Tree → Prop
  | declared {d : DefId} {info : Definition} {t : TypeId} {T : Tree} (hd : S.definition? = some d)
      (hinfo : c.definitions.get? d = some info) (ht : t ∈ info.supertypes)
      (hT : base.Unfolds t T) : DirectSupertype c base S (T.subst (.assign d S.args))
  | constraint {p : Param} {decl : ParamDecl} {t : TypeId} {T : Tree} (hp : S = .param p)
      (hdecl : c.definitions.param? p = some decl) (ht : t ∈ decl.constraints)
      (hT : base.Unfolds t T) : DirectSupertype c base S T

/-- `Us` is what is declared right above `S`, in the order of the declarations. -/
inductive DirectSupertypes (c : Catalog) (base : Types) (S : Tree) : List Tree → Prop
  | declared {d : DefId} {Ts : List Tree} (hd : S.definition? = some d)
      (hTs : List.Forall₂ base.Unfolds (((c.definitions.get? d).map (·.supertypes)).getD []) Ts) :
      DirectSupertypes c base S (Ts.map (Tree.subst (.assign d S.args)))
  | constraints {p : Param} {Ts : List Tree} (hp : S = .param p)
      (hTs : List.Forall₂ base.Unfolds (((c.definitions.param? p).map (·.constraints)).getD []) Ts) :
      DirectSupertypes c base S Ts

namespace DirectSupertypes

variable {c : Catalog} {base : Types} {S U : Tree} {Us Vs : List Tree}

theorem mem_iff (h : DirectSupertypes c base S Us) : U ∈ Us ↔ DirectSupertype c base S U := by
  cases h with
  | @declared d Ts hd hTs =>
    rw [List.mem_map]
    constructor
    · rintro ⟨T, hT, rfl⟩
      obtain ⟨t, ht, htT⟩ := exists_of_mem_right hTs hT
      cases hinfo : c.definitions.get? d with
      | none => simp [hinfo] at ht
      | some info => exact .declared hd hinfo (by simpa [hinfo] using ht) htT
    · intro hU
      cases hU with
      | constraint hp =>
        subst hp
        cases hd
      | declared hd' hinfo ht htT =>
        obtain rfl := Option.some.inj (hd.symm.trans hd')
        obtain ⟨T, hT, htT'⟩ := exists_of_mem_left hTs (by simpa [hinfo] using ht)
        exact ⟨T, hT, htT.unique htT' ▸ rfl⟩
  | @constraints p _ hp hTs =>
    subst hp
    constructor
    · intro hU
      obtain ⟨t, ht, htT⟩ := exists_of_mem_right hTs hU
      cases hdecl : c.definitions.param? p with
      | none => simp [hdecl] at ht
      | some decl => exact .constraint rfl hdecl (by simpa [hdecl] using ht) htT
    · intro hU
      cases hU with
      | declared hd => cases hd
      | constraint hp hdecl ht htT =>
        cases hp
        obtain ⟨T, hT, htT'⟩ := exists_of_mem_left hTs (by simpa [hdecl] using ht)
        exact htT.unique htT' ▸ hT

theorem unique (h : DirectSupertypes c base S Us) (h' : DirectSupertypes c base S Vs) : Us = Vs := by
  cases h with
  | declared hd hTs =>
    cases h' with
    | declared hd' hTs' =>
      obtain rfl := Option.some.inj (hd.symm.trans hd')
      rw [eq_of_forall₂ hTs hTs' fun _ _ _ _ _ hT hT' => hT.unique hT']
    | constraints hp =>
      subst hp
      cases hd
  | constraints hp hTs =>
    subst hp
    cases h' with
    | declared hd => cases hd
    | constraints hp hTs' =>
      cases hp
      exact eq_of_forall₂ hTs hTs' fun _ _ _ _ _ hT hT' => hT.unique hT'

end DirectSupertypes

/-- `T` is `S` or lies above it. -/
abbrev Supertype (c : Catalog) (base : Types) : Tree → Tree → Prop :=
  Relation.ReflTransGen (DirectSupertype c base)

namespace Catalog

variable {c : Catalog} {base ts us : Types} {t : TypeId} {S T : Tree}

theorem Grounded.exists_supertypes (hc : c.Grounded base) (d : DefId) :
    ∃ Ts, List.Forall₂ base.Unfolds (((c.definitions.get? d).map (·.supertypes)).getD []) Ts := by
  cases hinfo : c.definitions.get? d with
  | none => exact ⟨[], .nil⟩
  | some info => exact forall₂_of_forall_exists (hc.supertypes d info hinfo)

theorem Grounded.exists_constraints (hc : c.Grounded base) (p : Param) :
    ∃ Ts, List.Forall₂ base.Unfolds (((c.definitions.param? p).map (·.constraints)).getD []) Ts := by
  cases hdecl : c.definitions.param? p with
  | none => exact ⟨[], .nil⟩
  | some decl => exact forall₂_of_forall_exists (hc.constraints p decl hdecl)

/-- The declared supertypes of a type, once specialised, are its direct supertypes in order. -/
theorem exists_directSupertypes (hc : c.Grounded base) (ht : ts.Unfolds t T) :
    ∃ f Ks, ((c.view ts).declaredSupertypes t).1.Unfolds ts f ∧
      List.Forall₂ base.Unfolds ((c.view ts).declaredSupertypes t).2 Ks ∧
      DirectSupertypes c base T (Ks.map (Tree.subst f)) := by
  cases ht with
  | @named _ d h =>
    obtain ⟨Ks, hKs⟩ := hc.exists_supertypes d
    simp only [View.declaredSupertypes, view_node? hc.plain, h, view_definition?]
    refine ⟨.param, Ks, Substitution.unfolds_empty ts, hKs, ?_⟩
    rw [← Tree.assign_nil d]
    exact .declared (S := .named d) rfl hKs
  | @app _ d args Ts h hargs =>
    obtain ⟨Ks, hKs⟩ := hc.exists_supertypes d
    simp only [View.declaredSupertypes, view_node? hc.plain, h, view_definition?]
    exact ⟨.assign d Ts, Ks, Substitution.unfolds_ofArgs d hargs, hKs, .declared (S := .app d Ts) rfl hKs⟩
  | @param _ p h =>
    obtain ⟨Ks, hKs⟩ := hc.exists_constraints p
    simp only [View.declaredSupertypes, view_node? hc.plain, h, view_param?]
    refine ⟨.param, Ks, Substitution.unfolds_empty ts, hKs, ?_⟩
    rw [List.map_id'' fun K => Tree.subst_eq_self fun _ _ => rfl]
    exact .constraints rfl hKs

/-- The declared supertypes of a type, once specialised, are its direct supertypes. -/
theorem declaredSupertypes_spec (hc : c.Grounded base) (ht : ts.Unfolds t T) :
    ∃ f, (((c.view ts).declaredSupertypes t).1.Unfolds ts f) ∧
      (∀ k ∈ ((c.view ts).declaredSupertypes t).2, ∃ K, base.Unfolds k K ∧
        DirectSupertype c base T (K.subst f)) ∧
      ∀ U, DirectSupertype c base T U →
        ∃ k ∈ ((c.view ts).declaredSupertypes t).2, ∃ K, base.Unfolds k K ∧ U = K.subst f := by
  obtain ⟨f, Ks, hσ, hKs, hdirect⟩ := c.exists_directSupertypes hc ht
  refine ⟨f, hσ, fun k hk => ?_, fun U hU => ?_⟩
  · obtain ⟨K, hK, hkK⟩ := exists_of_mem_left hKs hk
    exact ⟨K, hkK, hdirect.mem_iff.1 (List.mem_map_of_mem hK)⟩
  · obtain ⟨K, hK, rfl⟩ := List.mem_map.1 (hdirect.mem_iff.2 hU)
    obtain ⟨k, hk, hkK⟩ := exists_of_mem_right hKs hK
    exact ⟨k, hk, K, hkK, rfl⟩

theorem declaredSupertypes_grow (hplain : c.overrides = []) (ht : ts.Unfolds t T)
    (hgrow : ts.Grows us) :
    (c.view us).declaredSupertypes t = (c.view ts).declaredSupertypes t := by
  obtain ⟨node, hnode, -⟩ := ht.exists_node
  simp only [View.declaredSupertypes, view_node? hplain, hnode, hgrow _ _ hnode, view_definition?,
    view_param?]

end Catalog

/-! ## Ascents -/

/-- A walk that has come along `path`, the latest type first, and has found `found` goes on through
`pending` and has then found `found'`.  It has not gone on above the first types of the paths in
`refused`. -/
inductive Ascent (c : Catalog) (base : Types) :
    List Tree → List Tree → List Tree → List Tree → List (List Tree) → Prop
  | done (path found : List Tree) : Ascent c base path found [] found []
  | known {T : Tree} {path found pending found' : List Tree} {refused : List (List Tree)}
      (hT : T ∈ found) (hrest : Ascent c base path found pending found' refused) :
      Ascent c base path found (T :: pending) found' refused
  | refuse {T : Tree} {path found pending found' : List Tree} {refused : List (List Tree)}
      (hT : T ∉ found) (hrest : Ascent c base path (found ++ [T]) pending found' refused) :
      Ascent c base path found (T :: pending) found' ((T :: path) :: refused)
  | enter {T : Tree} {path found pending Us found' found'' : List Tree}
      {refused refused' : List (List Tree)} (hT : T ∉ found) (hUs : DirectSupertypes c base T Us)
      (habove : Ascent c base (T :: path) (found ++ [T]) Us found' refused)
      (hrest : Ascent c base path found' pending found'' refused') :
      Ascent c base path found (T :: pending) found'' (refused ++ refused')

namespace Ascent

variable {c : Catalog} {base : Types} {path found pending found' Ts found'' : List Tree}
  {refused refused' : List (List Tree)}

theorem append (h : Ascent c base path found pending found' refused)
    (h' : Ascent c base path found' Ts found'' refused') :
    Ascent c base path found (pending ++ Ts) found'' (refused ++ refused') := by
  induction h with
  | done => exact h'
  | known hT _ ih => exact .known hT (ih h')
  | refuse hT _ ih => exact .refuse hT (ih h')
  | enter hT hUs habove _ _ ih =>
    rw [List.append_assoc]
    exact .enter hT hUs habove (ih h')

theorem isPrefix (h : Ascent c base path found pending found' refused) : found <+: found' := by
  induction h with
  | done => exact List.prefix_refl _
  | known _ _ ih => exact ih
  | refuse _ _ ih => exact (List.prefix_append ..).trans ih
  | enter _ _ _ _ ihabove ihrest => exact (List.prefix_append ..).trans (ihabove.trans ihrest)

/-- Only what lies above a type is found along the way. -/
theorem sound {S : Tree} (h : Ascent c base path found pending found' refused)
    (hfound : ∀ T ∈ found, Supertype c base S T) (hpending : ∀ T ∈ pending, Supertype c base S T) :
    ∀ T ∈ found', Supertype c base S T := by
  induction h with
  | done => exact hfound
  | known _ _ ih => exact ih hfound (List.forall_mem_cons.1 hpending).2
  | refuse _ _ ih =>
    obtain ⟨hT, hpending⟩ := List.forall_mem_cons.1 hpending
    exact ih (List.forall_mem_append.2 ⟨hfound, by simpa using hT⟩) hpending
  | enter _ hUs _ _ ihabove ihrest =>
    obtain ⟨hT, hpending⟩ := List.forall_mem_cons.1 hpending
    refine ihrest (ihabove (List.forall_mem_append.2 ⟨hfound, by simpa using hT⟩) ?_) hpending
    exact fun U hU => hT.tail (hUs.mem_iff.1 hU)

/-- Everything right above a new find is found too, unless the walk was refused there. -/
theorem explored (h : Ascent c base path found pending found' refused) :
    (∀ T ∈ pending, T ∈ found') ∧ ∀ T ∈ found', T ∈ found ∨ (∃ path, T :: path ∈ refused) ∨
      ∀ U, DirectSupertype c base T U → U ∈ found' := by
  induction h with
  | done => exact ⟨by simp, fun T hT => .inl hT⟩
  | known hT hrest ih => exact ⟨List.forall_mem_cons.2 ⟨hrest.isPrefix.subset hT, ih.1⟩, ih.2⟩
  | @refuse T path found pending found' refused hT hrest ih =>
    refine ⟨List.forall_mem_cons.2 ⟨hrest.isPrefix.subset (by simp), ih.1⟩, fun U hU => ?_⟩
    rcases ih.2 U hU with hold | ⟨p, hp⟩ | hall
    · rcases List.mem_append.1 hold with hold | hself
      · exact .inl hold
      · exact .inr (.inl ⟨path, by simp [List.mem_singleton.1 hself]⟩)
    · exact .inr (.inl ⟨p, List.mem_cons_of_mem _ hp⟩)
    · exact .inr (.inr hall)
  | @enter T path found pending Us found' found'' refused refused' hT hUs habove hrest ihabove ihrest =>
    have hsub := hrest.isPrefix.subset
    refine ⟨List.forall_mem_cons.2 ⟨hsub (habove.isPrefix.subset (by simp)), ihrest.1⟩, fun U hU => ?_⟩
    rcases ihrest.2 U hU with hold | ⟨p, hp⟩ | hall
    · rcases ihabove.2 U hold with hold | ⟨p, hp⟩ | hall
      · rcases List.mem_append.1 hold with hold | hself
        · exact .inl hold
        · rw [List.mem_singleton.1 hself]
          exact .inr (.inr fun V hV => hsub (ihabove.1 V (hUs.mem_iff.2 hV)))
      · exact .inr (.inl ⟨p, List.mem_append_left _ hp⟩)
      · exact .inr (.inr fun V hV => hsub (hall V hV))
    · exact .inr (.inl ⟨p, List.mem_append_right _ hp⟩)
    · exact .inr (.inr hall)

end Ascent

/-! ## Walks as ascents -/

namespace Climb

variable {c : Catalog} {base ts us : Types} {t : TypeId} {T : Tree} {w w' w'' : Climb}
  {path found pending found' Ts found'' : List Tree} {refused refused' : List (List Tree)}
  {e : Entry} {guard left : Guard TypeId}

/-- The walk `w` is visiting `path` and has found `found`. -/
structure Depicts (ts : Types) (path found : List Tree) (w : Climb) : Prop where
  found : List.Forall₂ ts.Unfolds w.found.toList found
  path : List.Forall₂ ts.Unfolds w.guard.visiting path
  visiting : ∀ u ∈ w.guard.visiting, u ∈ w.found.toList
  depth : w.guard.depth = w.guard.visiting.length
  count : w.guard.iterations ≤ Guard.maxCount

namespace Depicts

theorem grow (h : w.Depicts ts path found) (hgrow : ts.Grows us) : w.Depicts us path found where
  found := Types.forall₂_unfolds_grow h.found hgrow
  path := Types.forall₂_unfolds_grow h.path hgrow
  visiting := h.visiting
  depth := h.depth
  count := h.count

theorem mem_iff (h : w.Depicts ts path found) (ht : ts.Unfolds t T) :
    t ∈ w.found.toList ↔ T ∈ found := by
  constructor
  · intro hmem
    obtain ⟨U, hU, htU⟩ := exists_of_mem_left h.found hmem
    exact ht.unique htU ▸ hU
  · intro hmem
    obtain ⟨u, hu, huT⟩ := exists_of_mem_right h.found hmem
    exact ht.inj huT ▸ hu

theorem found_insert (h : w.Depicts ts path found) (ht : ts.Unfolds t T) (hnew : t ∉ w.found.toList) :
    List.Forall₂ ts.Unfolds (w.found.insert t).toList (found ++ [T]) := by
  rw [InternTable.toList_insert, if_neg (by rwa [InternTable.contains_iff_mem_toList])]
  exact List.rel_append h.found (.cons ht .nil)

theorem enter (h : w.Depicts ts path found) (ht : ts.Unfolds t T) (hnew : t ∉ w.found.toList)
    (henter : w.guard.enter t = (.entered, guard)) :
    Depicts ts (T :: path) (found ++ [T]) ⟨w.found.insert t, guard⟩ := by
  obtain ⟨-, -, rfl⟩ := Guard.eq_of_enter henter
  refine ⟨h.found_insert ht hnew, .cons ht h.path, fun u hu => ?_, ?_, Nat.min_le_right ..⟩
  · exact InternTable.mem_toList_insert.2 ((List.mem_cons.1 hu).imp id (h.visiting u))
  · simp [h.depth]

end Depicts

/-- From `w` on, the walk has made an ascent to `w'`.  It is refused a step only where its guard has
reached a limit, and only at the greatest depth unless that is the limit of its steps. -/
structure Ascends (c : Catalog) (base ts : Types) (path found pending found' : List Tree)
    (refused : List (List Tree)) (w w' : Climb) : Prop where
  depicts : w'.Depicts ts path found'
  ascent : Ascent c base path found pending found' refused
  keeps : w.guard.Keeps w'.guard
  count : w.guard.iterations ≤ w'.guard.iterations
  complete : w'.guard.exceeded = false → refused = []
  deep : w'.guard.iterations ≤ w.guard.limits.maxIterations.toNat →
    ∀ p ∈ refused, p.length = w.guard.limits.maxDepth.toNat + 1

namespace Ascends

theorem refl (h : w.Depicts ts path found) : Ascends c base ts path found [] found [] w w :=
  ⟨h, .done path found, .refl _, Nat.le_refl _, fun _ => rfl, fun _ => by simp⟩

theorem known (h : w.Depicts ts path found) (hT : T ∈ found) :
    Ascends c base ts path found [T] found [] w w :=
  ⟨h, .known hT (.done path found), .refl _, Nat.le_refl _, fun _ => rfl, fun _ => by simp⟩

theorem trans (h : Ascends c base ts path found pending found' refused w w')
    (h' : Ascends c base us path found' Ts found'' refused' w' w'') :
    Ascends c base us path found (pending ++ Ts) found'' (refused ++ refused') w w'' where
  depicts := h'.depicts
  ascent := h.ascent.append h'.ascent
  keeps := h.keeps.trans h'.keeps
  count := Nat.le_trans h.count h'.count
  complete he := by rw [h.complete (h'.keeps.exceeded he), h'.complete he, List.append_nil]
  deep hcount p hp := by
    rcases List.mem_append.1 hp with hp | hp
    · exact h.deep (Nat.le_trans h'.count hcount) p hp
    · rw [← h.keeps.limits] at hcount ⊢
      exact h'.deep hcount p hp

/-- A type that is refused is found, but the walk does not go on above it. -/
theorem refuse (h : w.Depicts ts path found) (ht : ts.Unfolds t T) (hnew : t ∉ w.found.toList)
    (hroom : w.guard.depth ≤ w.guard.limits.maxDepth.toNat) (henter : w.guard.enter t = (e, guard))
    (he : e ≠ .entered) :
    Ascends c base ts path found [T] (found ++ [T]) [T :: path] w ⟨w.found.insert t, guard⟩ := by
  have hcounted : w.guard.iterations ≤ w.guard.counted.iterations :=
    Nat.le_min.2 ⟨Nat.le_succ _, h.count⟩
  have hascent : Ascent c base path found [T] (found ++ [T]) [T :: path] :=
    .refuse (by rwa [← h.mem_iff ht]) (.done ..)
  have hdepicts : ∀ guard : Guard TypeId, guard.visiting = w.guard.visiting →
      guard.depth = w.guard.depth → guard.iterations = w.guard.counted.iterations →
      Depicts ts path (found ++ [T]) ⟨w.found.insert t, guard⟩ := by
    intro guard hvisiting hdepth hcount
    refine ⟨h.found_insert ht hnew, hvisiting ▸ h.path, fun u hu => ?_, ?_,
      hcount ▸ Nat.min_le_right ..⟩
    · exact InternTable.mem_toList_insert.2 (.inr (h.visiting u (hvisiting ▸ hu)))
    · exact hvisiting ▸ hdepth ▸ h.depth
  rcases Guard.enter_cases w.guard t with ⟨hlong, heq⟩ | ⟨-, hmem, -⟩ | ⟨-, -, hdeep, heq⟩ |
    ⟨-, -, -, heq⟩
  · obtain ⟨-, rfl⟩ := Prod.mk.inj (henter.symm.trans heq)
    exact ⟨hdepicts _ rfl rfl rfl, hascent, ⟨rfl, rfl, rfl, nofun⟩, hcounted, nofun, fun hcount =>
      absurd hcount (Nat.not_le_of_lt hlong)⟩
  · exact absurd (h.visiting t hmem) hnew
  · obtain ⟨-, rfl⟩ := Prod.mk.inj (henter.symm.trans heq)
    refine ⟨hdepicts _ rfl rfl rfl, hascent, ⟨rfl, rfl, rfl, nofun⟩, hcounted, nofun, fun _ p hp => ?_⟩
    rw [List.mem_singleton.1 hp, List.length_cons, ← h.path.length_eq, ← h.depth,
      Nat.le_antisymm hroom hdeep]
  · exact absurd (Prod.mk.inj (henter.symm.trans heq)).1 he

/-- A type may be left once the walk has gone through everything right above it. -/
theorem leave {Us : List Tree} (hw : w.Depicts ts path found) (ht : ts.Unfolds t T)
    (hnew : t ∉ w.found.toList) (hUs : DirectSupertypes c base T Us)
    (henter : w.guard.enter t = (.entered, guard))
    (h : Ascends c base us (T :: path) (found ++ [T]) Us found' refused ⟨w.found.insert t, guard⟩ w')
    (hleave : w'.guard.leave t = .ok left) (hkeeps : w.guard.Keeps left)
    (hexceeded : left.exceeded = w'.guard.exceeded) :
    Ascends c base us path found [T] found' refused w ⟨w'.found, left⟩ := by
  obtain ⟨-, -, rfl⟩ := Guard.eq_of_enter henter
  have hvisiting : w'.guard.visiting = t :: left.visiting :=
    h.keeps.visiting.trans (congrArg (t :: ·) hkeeps.visiting.symm)
  have hcount : left.iterations = w'.guard.iterations := Guard.leave_iterations hleave
  have hpath := h.depicts.path
  rw [hvisiting] at hpath
  refine ⟨⟨h.depicts.found, (List.forall₂_cons.1 hpath).2, fun u hu => ?_, ?_, hcount ▸ h.depicts.count⟩,
    ?_, hkeeps, ?_, fun he => h.complete (hexceeded ▸ he), fun hle => h.deep (hcount ▸ hle)⟩
  · exact h.depicts.visiting u (hvisiting ▸ List.mem_cons_of_mem _ hu)
  · rw [hkeeps.visiting, hkeeps.depth, hw.depth]
  · rw [← List.append_nil refused]
    exact .enter (by rwa [← hw.mem_iff ht]) hUs h.ascent (.done ..)
  · exact hcount ▸ Nat.le_trans (Nat.le_min.2 ⟨Nat.le_succ _, hw.count⟩) h.count

end Ascends

end Climb

namespace Engine

variable {c : Catalog} {base ts us : Types} {t : TypeId} {T : Tree} {w : Climb}
  {path found : List Tree}

/-- Walks with `n` levels of fuel are ascents. -/
def ClimbsAscend (c : Catalog) (base : Types) (n : Nat) : Prop :=
  ∀ {ts : Types} {t : TypeId} {T : Tree} {w : Climb} {path found : List Tree}, base.Grows ts →
    ts.Unfolds t T → w.Depicts ts path found → w.guard.Fits n →
      Settles (climb c n w t) ts fun w' us cut => cut = false ∧
        ∃ found' refused, Climb.Ascends c base us path found [T] found' refused w w'

/-- A walk that enters a type finds everything right above it, and then leaves the type. -/
theorem settles_climb_entered (hc : c.Grounded base) (hbase : base.Grows ts) {n : Nat}
    (hclimb : ClimbsAscend c base n) {guard : Guard TypeId} (ht : ts.Unfolds t T)
    (hw : w.Depicts ts path found) (hfits : w.guard.Fits (n + 1)) (hnew : t ∉ w.found.toList)
    (henter : w.guard.enter t = (.entered, guard)) :
    Settles (climb c (n + 1) w t) ts fun w' us cut => cut = false ∧ ∃ found' refused,
      Climb.Ascends c base us path found [T] found' refused w w' ∧
        ∀ U, DirectSupertype c base T U → U ∈ found' := by
  rw [climb, if_neg (by rwa [InternTable.contains_iff_mem_toList]), henter]
  obtain ⟨-, -, -, hfits'⟩ := Guard.of_enter_eq_entered henter
  refine .query_bind c (fun vs hvs => c.declaredSupertypes_grow hc.plain ht hvs) ?_
  obtain ⟨f, Ks, hσ, hKs, hdirect⟩ := c.exists_directSupertypes hc ht
  generalize (c.view ts).declaredSupertypes t = d at hσ hKs ⊢
  obtain ⟨σ, declared⟩ := d
  -- the walk has made an ascent through the images of the declared supertypes treated so far
  refine Settles.bind (Settles.foldlM (I := fun done w' us cut => cut = false ∧
      ∃ Ds found' refused, List.Forall₂ base.Unfolds done Ds ∧
        Climb.Ascends c base us (T :: path) (found ++ [T]) (Ds.map (Tree.subst f)) found' refused
          ⟨w.found.insert t, guard⟩ w')
      ⟨rfl, [], _, [], .nil, .refl (hw.enter ht hnew henter)⟩ ?_) ?_
  · rintro done k rest w' us _ hl hgrow ⟨rfl, Ds, found', refused, hDs, hw'⟩
    obtain ⟨K, -, hK⟩ := exists_of_mem_left hKs (show k ∈ declared by simp [hl])
    have hbase' := hbase.trans hgrow
    refine (settles_instantiate hc.plain (hK.grow hbase') (hσ.grow hgrow)).bind ?_
    rintro u vs _ hgrow' ⟨hu, rfl, -⟩
    refine (hclimb (hbase'.trans hgrow') hu (hw'.depicts.grow hgrow')
      ((hfits' n hfits).of_keeps hw'.keeps)).mono ?_
    rintro w'' ws _ - ⟨rfl, found'', refused', hw''⟩
    refine ⟨rfl, Ds ++ [K], found'', refused ++ refused', List.rel_append hDs (.cons hK .nil), ?_⟩
    rw [List.map_append]
    exact hw'.trans hw''
  · rintro w' us _ hgrow ⟨rfl, Ds, found', refused, hDs, hw'⟩
    obtain rfl := eq_of_forall₂ hDs hKs fun _ _ _ _ _ hD hK => hD.unique hK
    obtain ⟨g, hleave, hkeeps, hexceeded⟩ := Guard.exists_leave_eq_ok henter hw'.keeps
    refine Settles.leave_bind hleave (.pure ⟨rfl, found', refused,
      .leave hw ht hnew hdirect henter hw' hleave hkeeps hexceeded, fun U hU => ?_⟩)
    exact hw'.ascent.explored.1 U (hdirect.mem_iff.2 hU)

/-- Every walk is an ascent. -/
theorem settles_climb (hc : c.Grounded base) (n : Nat) : ClimbsAscend c base n := by
  induction n with
  | zero => exact fun _ _ _ hfits => (Guard.not_fits_zero hfits).elim
  | succ n ih =>
    intro ts t T w path found hbase ht hw hfits
    by_cases hnew : t ∈ w.found.toList
    · rw [climb, if_pos (by rwa [InternTable.contains_iff_mem_toList])]
      exact .pure ⟨rfl, found, [], .known hw ((hw.mem_iff ht).1 hnew)⟩
    rcases henter : w.guard.enter t with ⟨e, guard⟩
    by_cases he : e = .entered
    · subst he
      refine (settles_climb_entered hc hbase ih ht hw hfits hnew henter).mono ?_
      rintro w' us cut - ⟨hcut, found', refused, hw', -⟩
      exact ⟨hcut, found', refused, hw'⟩
    · rw [climb, if_neg (by rwa [InternTable.contains_iff_mem_toList]), henter]
      have hrefuse : Climb.Ascends c base ts path found [T] (found ++ [T]) [T :: path] w
          ⟨w.found.insert t, guard⟩ := .refuse hw ht hnew hfits.room henter he
      cases e with
      | entered => exact absurd rfl he
      | cycle => exact .pure ⟨rfl, _, _, hrefuse⟩
      | tooDeep => exact .pure ⟨rfl, _, _, hrefuse⟩
      | tooLong => exact .pure ⟨rfl, _, _, hrefuse⟩

/-- The walk that an enumeration makes. -/
abbrev climbAll (c : Catalog) (t : TypeId) : Engine Climb :=
  climb c (Limits.hierarchy.maxDepth.toNat + 1) ⟨.empty, { limits := .hierarchy }⟩ t

theorem depicts_start (ts : Types) (limits : Limits) :
    Climb.Depicts ts [] [] ⟨.empty, { limits }⟩ :=
  ⟨by simp [InternTable.empty, InternTable.toList], .nil, by simp, rfl, Nat.zero_le _⟩

theorem ascends_climbAll (hc : c.Grounded base) (hbase : base.Grows ts) (ht : ts.Unfolds t T) :
    Settles (climbAll c t) ts fun w us cut => cut = false ∧ ∃ found refused,
      Climb.Ascends c base us [] [] [T] found refused ⟨.empty, { limits := .hierarchy }⟩ w :=
  settles_climb hc _ hbase ht (depicts_start ts _) (Guard.fits_start _)

/-! ## The enumeration -/

/-- What an enumeration above `t`, which is the tree `T`, has found. -/
structure Above (c : Catalog) (base ts : Types) (t : TypeId) (T : Tree) (found : List TypeId)
    (cut : Bool) : Prop where
  self : t ∈ found
  sound : ∀ u ∈ found, ∃ U, ts.Unfolds u U ∧ Supertype c base T U
  complete : cut = false → ∀ U, Supertype c base T U → ∃ u ∈ found, ts.Unfolds u U

/-- An enumeration answers what its walk has found. -/
theorem settles_supertypes_of_climbAll {P : InternTable TypeId → Types → Bool → Prop}
    (hwalk : Settles (climbAll c t) ts fun w us cut => cut = false ∧ P w.found us w.guard.exceeded) :
    Settles (supertypes c t) ts P := by
  refine Settles.bind hwalk ?_
  rintro w us _ _ ⟨rfl, hP⟩
  have hend : Settles (retire w.guard >>= fun _ => Pure.pure w.found) us P :=
    .retire_bind w.guard (.pure (by rwa [Bool.or_false]))
  simp only [Bool.false_or]
  split
  · exact .report_bind c _ hend
  · exact hend

/-- The enumeration finds supertypes only, and all of them unless it is cut short. -/
theorem settles_supertypes (hc : c.Grounded base) (hbase : base.Grows ts) (ht : ts.Unfolds t T) :
    Settles (supertypes c t) ts fun found us cut => Above c base us t T found.toList cut := by
  refine settles_supertypes_of_climbAll ((ascends_climbAll hc hbase ht).mono ?_)
  rintro w us cut hgrow ⟨hcut, Us, refused, hw⟩
  obtain ⟨hpending, hexplored⟩ := hw.ascent.explored
  refine ⟨hcut, ?_, fun u hu => ?_, fun he U hU => ?_⟩
  · exact (hw.depicts.mem_iff (ht.grow hgrow)).2 (hpending T List.mem_cons_self)
  · obtain ⟨U, hU, huU⟩ := exists_of_mem_left hw.depicts.found hu
    exact ⟨U, huU, hw.ascent.sound (by simp) (by simpa using .refl) U hU⟩
  · suffices hmem : U ∈ Us from exists_of_mem_right hw.depicts.found hmem
    induction hU with
    | refl => exact hpending T List.mem_cons_self
    | tail _ hdirect ih =>
      rcases hexplored _ ih with hold | ⟨path, hpath⟩ | hall
      · cases hold
      · rw [hw.complete he] at hpath
        cases hpath
      · exact hall _ hdirect

/-- What is declared right above a type is found, however soon the guard cuts the walk short. -/
theorem settles_supertypes_direct (hc : c.Grounded base) (hbase : base.Grows ts)
    (ht : ts.Unfolds t T) : Settles (supertypes c t) ts fun found us _ =>
      ∀ U, DirectSupertype c base T U → ∃ u ∈ found.toList, us.Unfolds u U := by
  have henter : Guard.enter { limits := .hierarchy } t = (.entered, _) :=
    Guard.enter_eq_entered (by decide) List.not_mem_nil (by decide)
  refine settles_supertypes_of_climbAll ((settles_climb_entered hc hbase (settles_climb hc _) ht
    (depicts_start ts _) (Guard.fits_start _) (by simp [InternTable.empty, InternTable.toList])
    henter).mono ?_)
  rintro w us cut - ⟨hcut, found, refused, hw, hdirect⟩
  exact ⟨hcut, fun U hU => exists_of_mem_right hw.depicts.found (hdirect U hU)⟩

end Engine

end Generics
