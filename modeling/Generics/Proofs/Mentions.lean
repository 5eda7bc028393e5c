import Generics.Proofs.Unfolding
import Generics.View.Params

/-!
# Mentioned parameters

On types that unfold to trees, both walks through the parameters of a type find what the tree holds,
from left to right, and neither depends on the fuel it is given or on types added later.
-/

namespace Generics

theorem mem_insert_treeSet {α : Type} [Ord α] [Std.TransOrd α] [Std.LawfulEqOrd α]
    {s : Std.TreeSet α} {t u : α} : u ∈ s.insert t ↔ u = t ∨ u ∈ s := by
  rw [Std.TreeSet.mem_insert, Std.LawfulEqCmp.compare_eq_iff_eq, eq_comm]

namespace View

variable {v : View} {t : TypeId} {T : Tree} {n : Nat} {ps : List Param} {p : Param}
  {m : Mentions}

/-! ## What the walks find -/

/-- Types entered before hold no parameter that is still to be noted, as far as a walk through a
type of the given height can meet them. -/
def Mentions.DoneTo (v : View) (h : Nat) (m : Mentions) : Prop :=
  ∀ u ∈ m.entered, ∀ U, Unfolds v.node? u U → U.height ≤ h → U.params ⊆ m.params

/-- `m'` adds to `m` the parameters `ps`, and it is done with the types entered since. -/
structure Mentions.Adds (v : View) (m : Mentions) (ps : List Param) (m' : Mentions) : Prop where
  mem_iff : ∀ p, p ∈ m'.params ↔ p ∈ m.params ∨ p ∈ ps
  done : ∀ u ∈ m'.entered, u ∈ m.entered ∨ ∀ U, Unfolds v.node? u U → U.params ⊆ m'.params

theorem Mentions.Adds.refl (v : View) (m : Mentions) : m.Adds v [] m where
  mem_iff p := by simp
  done u hu := .inl hu

theorem Mentions.Adds.trans {m' m'' : Mentions} {ps qs : List Param} (h : m.Adds v ps m')
    (h' : m'.Adds v qs m'') : m.Adds v (ps ++ qs) m'' where
  mem_iff p := by rw [h'.mem_iff, h.mem_iff, List.mem_append, or_assoc]
  done u hu := by
    rcases h'.done u hu with hu | hu
    · rcases h.done u hu with hu | hu
      · exact .inl hu
      · exact .inr fun U hU p hp => (h'.mem_iff p).2 (.inl (hu U hU hp))
    · exact .inr hu

theorem Mentions.DoneTo.of_adds {m' : Mentions} {h : Nat} (hm : m.DoneTo v h) (hadds : m.Adds v ps m') :
    m'.DoneTo v h := by
  intro u hu U hU hle p hp
  rcases hadds.done u hu with hu | hu
  · exact (hadds.mem_iff p).2 (.inl (hm u hu U hU hle hp))
  · exact hu U hU hp

/-- A type inside `t` is not `t` itself, which would be its own proper part. -/
theorem Mentions.DoneTo.enter {h : Nat} (hm : m.DoneTo v T.height) (ht : Unfolds v.node? t T)
    (hlt : h < T.height) : Mentions.DoneTo v h { m with entered := m.entered.insert t } := by
  intro u hu U hU hle
  rcases mem_insert_treeSet.1 hu with rfl | hu
  · rw [hU.unique ht] at hle
    omega
  · exact hm u hu U hU (by omega)

theorem Mentions.mem_add {q : Param} : q ∈ (m.add p).params ↔ q ∈ m.params ∨ q = p := by
  unfold Mentions.add
  split
  · rename_i h
    exact ⟨.inl, fun hq => hq.elim id fun hq => hq ▸ h⟩
  · simp

theorem adds_foldl_mentionsFrom {args : List TypeId} {Ts : List Tree}
    (hargs : List.Forall₂ (Unfolds v.node?) args Ts)
    (hstep : ∀ a, ∀ A ∈ Ts, ∀ m : Mentions, Unfolds v.node? a A → m.DoneTo v A.height →
      m.Adds v A.params (v.mentionsFrom n m a))
    (hm : ∀ A ∈ Ts, m.DoneTo v A.height) :
    m.Adds v (Ts.flatMap Tree.params) (args.foldl (v.mentionsFrom n) m) := by
  induction hargs generalizing m with
  | nil => exact .refl v m
  | @cons a A args Ts ha _ ih =>
    simp only [List.mem_cons, forall_eq_or_imp] at hm
    have hadds := hstep a A (List.mem_cons_self ..) m ha hm.1
    exact hadds.trans <| ih (fun a A hA => hstep a A (List.mem_cons_of_mem _ hA))
      fun A hA => (hm.2 A hA).of_adds hadds

theorem adds_mentionsFrom (ht : Unfolds v.node? t T) (hn : T.height ≤ n) (hm : m.DoneTo v T.height) :
    m.Adds v T.params (v.mentionsFrom n m t) := by
  induction n generalizing t T m with
  | zero => exact absurd hn (Nat.not_le_of_lt T.height_pos)
  | succ n ih =>
    rw [mentionsFrom]
    split
    · rename_i hmem
      have hsub := hm t (Std.TreeSet.contains_iff_mem.1 hmem) T ht (Nat.le_refl _)
      exact ⟨fun p => ⟨.inl, fun hp => hp.elim id fun hp => hsub hp⟩, fun u hu => .inl hu⟩
    · have hdone : ∀ m' : Mentions, m'.entered = m.entered.insert t → T.params ⊆ m'.params →
          ∀ u ∈ m'.entered, u ∈ m.entered ∨ ∀ U, Unfolds v.node? u U → U.params ⊆ m'.params := by
        intro m' hentered hsub u hu
        rw [hentered, mem_insert_treeSet] at hu
        rcases hu with rfl | hu
        · exact .inr fun U hU => hU.unique ht ▸ hsub
        · exact .inl hu
      cases ht with
      | named h =>
        simp only [h]
        exact ⟨fun p => by simp, hdone _ rfl (by simp)⟩
      | @param _ q h =>
        simp only [h]
        refine ⟨fun p => by simp [Mentions.mem_add], hdone _ ?_ fun p hp => ?_⟩
        · unfold Mentions.add
          split <;> rfl
        · exact Mentions.mem_add.2 (.inr (by simpa using hp))
      | @app _ d args Ts h hargs =>
        simp only [h, Tree.params_app]
        have hadds := adds_foldl_mentionsFrom (m := { m with entered := m.entered.insert t }) hargs
          (fun a A hA m' ha hm' => ih ha (Tree.height_le_of_mem hn hA) hm')
          fun A hA => hm.enter (.app h hargs) (Tree.height_lt_of_mem hA)
        refine ⟨hadds.mem_iff, fun u hu => ?_⟩
        rcases hadds.done u hu with hu | hu
        · rw [mem_insert_treeSet] at hu
          rcases hu with rfl | hu
          · refine .inr fun U hU p hp => (hadds.mem_iff p).2 (.inr ?_)
            rw [hU.unique (.app h hargs), Tree.params_app] at hp
            exact hp
          · exact .inl hu
        · exact .inr hu

theorem mem_params_iff (ht : Unfolds v.node? t T) (hn : T.height ≤ v.bound) :
    p ∈ v.params t ↔ p ∈ T.params := by
  have hadds := adds_mentionsFrom (m := ⟨[], ∅⟩) ht hn fun u hu =>
    absurd hu Std.TreeSet.not_mem_emptyc
  simpa [params, addParams] using hadds.mem_iff p

/-! ## In which order -/

/-- `ps` followed by those of `qs` that it lacks, in order of first occurrence. -/
def Mentions.appendNew (ps qs : List Param) : List Param :=
  qs.foldl (fun ps q => if q ∈ ps then ps else ps ++ [q]) ps

theorem Mentions.appendNew_of_subset {qs : List Param} (h : qs ⊆ ps) : appendNew ps qs = ps := by
  induction qs with
  | nil => rfl
  | cons q qs ih =>
    rw [List.cons_subset] at h
    rw [appendNew, List.foldl_cons, if_pos h.1]
    exact ih h.2

theorem Mentions.mem_appendNew {ps qs : List Param} : p ∈ appendNew ps qs ↔ p ∈ ps ∨ p ∈ qs := by
  induction qs generalizing ps with
  | nil => simp [appendNew]
  | cons q qs ih =>
    rw [appendNew, List.foldl_cons, ← appendNew, ih]
    split
    · rename_i hq
      rw [List.mem_cons]
      exact ⟨Or.imp_right .inr, fun h => h.elim .inl fun h => h.elim (fun h => .inl (h ▸ hq)) .inr⟩
    · rw [List.mem_append, List.mem_singleton, List.mem_cons, or_assoc]

theorem Mentions.appendNew_append (ps qs rs : List Param) :
    appendNew ps (qs ++ rs) = appendNew (appendNew ps qs) rs :=
  List.foldl_append

theorem params_foldl_mentionsFrom {args : List TypeId} {Ts : List Tree}
    (hargs : List.Forall₂ (Unfolds v.node?) args Ts) (hn : ∀ A ∈ Ts, A.height ≤ n)
    (hstep : ∀ a, ∀ A ∈ Ts, ∀ m : Mentions, Unfolds v.node? a A → m.DoneTo v A.height →
      (v.mentionsFrom n m a).params = Mentions.appendNew m.params A.params)
    (hm : ∀ A ∈ Ts, m.DoneTo v A.height) :
    (args.foldl (v.mentionsFrom n) m).params =
      Mentions.appendNew m.params (Ts.flatMap Tree.params) := by
  induction hargs generalizing m with
  | nil => rfl
  | @cons a A args Ts ha _ ih =>
    simp only [List.mem_cons, forall_eq_or_imp] at hn hm
    have hadds := adds_mentionsFrom ha hn.1 hm.1
    rw [List.foldl_cons, List.flatMap_cons, Mentions.appendNew_append,
      ← hstep a A (List.mem_cons_self ..) m ha hm.1]
    exact ih hn.2 (fun a A hA => hstep a A (List.mem_cons_of_mem _ hA))
      fun A hA => (hm.2 A hA).of_adds hadds

/-- The walk notes the parameters of the tree from left to right. -/
theorem params_mentionsFrom (ht : Unfolds v.node? t T) (hn : T.height ≤ n)
    (hm : m.DoneTo v T.height) :
    (v.mentionsFrom n m t).params = Mentions.appendNew m.params T.params := by
  induction n generalizing t T m with
  | zero => exact absurd hn (Nat.not_le_of_lt T.height_pos)
  | succ n ih =>
    rw [mentionsFrom]
    split
    · rename_i hmem
      have hsub := hm t (Std.TreeSet.contains_iff_mem.1 hmem) T ht (Nat.le_refl _)
      exact (Mentions.appendNew_of_subset hsub).symm
    · cases ht with
      | named h =>
        simp only [h, Tree.params_named]
        rfl
      | @param _ q h =>
        simp only [h, Tree.params_param, Mentions.add]
        rw [Mentions.appendNew, List.foldl_cons, List.foldl_nil]
        split <;> rfl
      | @app _ d args Ts h hargs =>
        simp only [h, Tree.params_app]
        exact params_foldl_mentionsFrom (m := { m with entered := m.entered.insert t }) hargs
          (fun A hA => Tree.height_le_of_mem hn hA)
          (fun a A hA m' ha hm' => ih ha (Tree.height_le_of_mem hn hA) hm')
          fun A hA => hm.enter (.app h hargs) (Tree.height_lt_of_mem hA)

/-! ## Looking for parameters -/

/-- No type of the set mentions a parameter of `ps`. -/
def Clean (v : View) (ps : List Param) (clean : Std.TreeSet TypeId) : Prop :=
  ∀ u ∈ clean, ∀ U, Unfolds v.node? u U → ∀ p ∈ ps, p ∉ U.params

theorem Clean.insert {clean : Std.TreeSet TypeId} (h : Clean v ps clean) (ht : Unfolds v.node? t T)
    (hT : ∀ p ∈ ps, p ∉ T.params) : Clean v ps (clean.insert t) := by
  intro u hu U hU
  rcases mem_insert_treeSet.1 hu with rfl | hu
  · rwa [hU.unique ht]
  · exact h u hu U hU

/-- The outcome of a search through trees that hold the parameters `qs`. -/
def Searched (v : View) (ps qs : List Param) : Option (Std.TreeSet TypeId) → Prop
  | none => ∃ p ∈ ps, p ∈ qs
  | some clean => Clean v ps clean ∧ ∀ p ∈ ps, p ∉ qs

theorem searched_foldlM_cleanFrom {args : List TypeId} {Ts : List Tree} {clean : Std.TreeSet TypeId}
    (hargs : List.Forall₂ (Unfolds v.node?) args Ts)
    (hstep : ∀ a, ∀ A ∈ Ts, ∀ clean, Unfolds v.node? a A → Clean v ps clean →
      Searched v ps A.params (v.cleanFrom ps n clean a))
    (hclean : Clean v ps clean) :
    Searched v ps (Ts.flatMap Tree.params) (args.foldlM (v.cleanFrom ps n) clean) := by
  induction hargs generalizing clean with
  | nil => exact ⟨hclean, by simp⟩
  | @cons a A args Ts ha _ ih =>
    rw [List.foldlM_cons, List.flatMap_cons]
    have hfirst := hstep a A (List.mem_cons_self ..) clean ha hclean
    cases hrun : v.cleanFrom ps n clean a with
    | none =>
      rw [hrun] at hfirst
      obtain ⟨p, hp, hpA⟩ := hfirst
      exact ⟨p, hp, List.mem_append_left _ hpA⟩
    | some clean' =>
      rw [hrun] at hfirst
      have hrest := ih (fun a A hA => hstep a A (List.mem_cons_of_mem _ hA)) hfirst.1
      simp only [Option.bind_eq_bind, Option.bind_some]
      cases hrun' : args.foldlM (v.cleanFrom ps n) clean' with
      | none =>
        rw [hrun'] at hrest
        obtain ⟨p, hp, hpT⟩ := hrest
        exact ⟨p, hp, List.mem_append_right _ hpT⟩
      | some clean'' =>
        rw [hrun'] at hrest
        refine ⟨hrest.1, fun p hp hmem => ?_⟩
        exact (List.mem_append.1 hmem).elim (hfirst.2 p hp) (hrest.2 p hp)

theorem searched_cleanFrom {clean : Std.TreeSet TypeId} (ht : Unfolds v.node? t T)
    (hn : T.height ≤ n) (hclean : Clean v ps clean) :
    Searched v ps T.params (v.cleanFrom ps n clean t) := by
  induction n generalizing t T clean with
  | zero => exact absurd hn (Nat.not_le_of_lt T.height_pos)
  | succ n ih =>
    rw [cleanFrom]
    split
    · rename_i hmem
      exact ⟨hclean, hclean t (Std.TreeSet.contains_iff_mem.1 hmem) T ht⟩
    · cases ht with
      | named h =>
        simp only [h]
        exact ⟨hclean.insert (.named h) (by simp), by simp⟩
      | @param _ q h =>
        simp only [h]
        by_cases hq : q ∈ ps
        · rw [if_pos hq]
          exact ⟨q, hq, by simp⟩
        · rw [if_neg hq]
          have hnone : ∀ p ∈ ps, p ∉ (Tree.param q).params := by
            rintro p hp hmem
            obtain rfl : p = q := by simpa using hmem
            exact hq hp
          exact ⟨hclean.insert (.param h) hnone, hnone⟩
      | @app _ d args Ts h hargs =>
        simp only [h]
        have hsearched := searched_foldlM_cleanFrom hargs
          (fun a A hA clean ha hclean => ih ha (Tree.height_le_of_mem hn hA) hclean) hclean
        rw [← Tree.params_app d] at hsearched
        cases hrun : args.foldlM (v.cleanFrom ps n) clean with
        | none =>
          rw [hrun] at hsearched
          exact hsearched
        | some clean' =>
          rw [hrun] at hsearched
          exact ⟨hsearched.1.insert (.app h hargs) hsearched.2, hsearched.2⟩

theorem mentionsAny_iff (ht : Unfolds v.node? t T) (hn : T.height ≤ v.bound) :
    v.mentionsAny t ps ↔ ∃ p ∈ ps, p ∈ T.params := by
  rw [mentionsAny, Bool.and_eq_true]
  have hsearched : Searched v ps T.params (v.cleanFrom ps v.bound ∅ t) :=
    searched_cleanFrom ht hn fun u hu => absurd hu Std.TreeSet.not_mem_emptyc
  cases hrun : v.cleanFrom ps v.bound ∅ t with
  | none =>
    rw [hrun] at hsearched
    obtain ⟨p, hp, hpT⟩ := hsearched
    have hne : ps ≠ [] := List.ne_nil_of_mem hp
    simp only [Option.isNone_none, and_true]
    exact ⟨fun _ => ⟨p, hp, hpT⟩, fun _ => by simpa using hne⟩
  | some clean =>
    rw [hrun] at hsearched
    simp only [Option.isNone_some, Bool.false_eq_true, and_false, false_iff]
    rintro ⟨p, hp, hpT⟩
    exact hsearched.2 p hp hpT

end View

/-! ## In a growing store -/

namespace Catalog

variable {c : Catalog} {ts us : Types} {t : TypeId} {T : Tree} {p : Param} {ps : List Param}

/-- The parameters of a type are those of its tree, in order of first occurrence. -/
theorem params_eq (hplain : c.overrides = []) (ht : ts.Unfolds t T) :
    (c.view ts).params t = View.Mentions.appendNew [] T.params := by
  refine View.params_mentionsFrom ?_ (Nat.le_trans ht.height_le (Nat.le_of_lt (c.size_lt_bound ts)))
    fun u hu => absurd hu Std.TreeSet.not_mem_emptyc
  rwa [view_node? hplain]

theorem params_grow (hplain : c.overrides = []) (ht : ts.Unfolds t T) (hgrow : ts.Grows us) :
    (c.view us).params t = (c.view ts).params t := by
  rw [params_eq hplain ht, params_eq hplain (ht.grow hgrow)]

theorem mem_params_iff (hplain : c.overrides = []) (ht : ts.Unfolds t T) :
    p ∈ (c.view ts).params t ↔ p ∈ T.params := by
  refine View.mem_params_iff ?_ (Nat.le_trans ht.height_le (Nat.le_of_lt (c.size_lt_bound ts)))
  rwa [view_node? hplain]

theorem mentionsAny_iff (hplain : c.overrides = []) (ht : ts.Unfolds t T) :
    (c.view ts).mentionsAny t ps ↔ ∃ p ∈ ps, p ∈ T.params := by
  refine View.mentionsAny_iff ?_ (Nat.le_trans ht.height_le (Nat.le_of_lt (c.size_lt_bound ts)))
  rwa [view_node? hplain]

theorem mentionsAny_grow (hplain : c.overrides = []) (ht : ts.Unfolds t T) (hgrow : ts.Grows us) :
    (c.view us).mentionsAny t ps = (c.view ts).mentionsAny t ps := by
  rw [Bool.eq_iff_iff, mentionsAny_iff hplain ht, mentionsAny_iff hplain (ht.grow hgrow)]

end Catalog

end Generics
