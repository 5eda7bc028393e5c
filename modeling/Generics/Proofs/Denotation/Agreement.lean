import Generics.Proofs.Denotation.Resolving
import Generics.Proofs.Inference

/-!
# Where the order makes no difference

What inference binds are parts of the abstraction, or of what lies above its parts.  If the applications
of each definition that lie above these come in the same order in two hierarchies, inference takes the
same in both wherever it looks for a supertype, so a request comes to the same.
-/

namespace Generics

/-- What `L` and `L'` say lies above types of `c`, and above those of which `P` holds, the applications of
each definition come in the same order in both. -/
structure Hierarchy.Alike (c : Catalog) (base : Types) (P : Tree → Prop) (L L' : Hierarchy) : Prop where
  sound : ∀ X Ts, L.Order X Ts → ∀ T ∈ Ts, Supertype c base X T
  order : ∀ X Ts Us, P X → L.Order X Ts → L'.Order X Us → ∀ d n,
    Ts.filterMap (Tree.argsAs? d n) = Us.filterMap (Tree.argsAs? d n)
  constraints : L'.constraints = L.constraints

/-! ## Bindings within a property -/

/-- Parameters are bound to types of which `P` holds. -/
def Bindings.Within (P : Tree → Prop) (E : Bindings) : Prop := ∀ p ∈ E.domain, P (E.image p)

variable {c : Catalog} {base : Types} {L L' : Hierarchy} {P : Tree → Prop} {E E' : Bindings}
  {free : List Param} {f : Param → Tree} {p : Param} {A B I K O X : Tree} {As Bs Fs : List Tree}
  {d : DefId}

theorem Bindings.Within.insert (h : E.Within P) (hX : P X) : (E.insert p X).Within P := by
  intro q hq
  change P (if q = p then X else E.image q)
  split
  · exact hX
  · rename_i hne
    exact h q ((List.mem_append.1 hq).resolve_right fun hq => hne (List.mem_singleton.1 hq))

/-- Matching binds parts of the types that it matches with. -/
theorem Bindings.Within.of_matches (h : E.Within P) (hP : Hereditary c base P) (hBs : ∀ B ∈ Bs, P B)
    (hmatches : E.Matches free As Bs E') : E'.Within P := by
  intro p hp
  by_cases hpE : p ∈ E.domain
  · exact hmatches.image p hpE ▸ h p hpE
  · obtain ⟨-, A, hA, hpA⟩ := (hmatches.mem_domain_iff.1 hp).resolve_left hpE
    exact hP.of_subst (hBs _ (hmatches.solves ▸ List.mem_map_of_mem hA)) hpA

theorem agree_matching (hP : Hereditary c base P) (hBs : ∀ B ∈ Bs, P B) :
    Outcomes.Agree (Bindings.Within P) (Bindings.matching free As Bs)
      (Bindings.matching free As Bs) where
  eq {o o'} ho ho' := by
    cases o with
    | none =>
      cases o' with
      | none => rfl
      | some E' => exact absurd ⟨E', ho'⟩ ho
    | some E =>
      cases o' with
      | none => exact absurd ⟨E, ho⟩ ho'
      | some E' => exact congrArg some (Bindings.Matches.unique ho ho')
  holds hE := Bindings.Within.of_matches (E := .empty) nofun hP hBs hE

theorem agree_matchingOneOf {Bss : List (List Tree)} (hP : Hereditary c base P)
    (hBss : ∀ Bs ∈ Bss, ∀ B ∈ Bs, P B) (hE : E.Within P) :
    Outcomes.Agree (Bindings.Within P) (E.matchingOneOf free As Bss) (E.matchingOneOf free As Bss) where
  eq {o o'} ho ho' := by
    cases o with
    | none =>
      cases o' with
      | none => rfl
      | some E' => exact absurd ho ho'.1
    | some E =>
      cases o' with
      | none => exact absurd ho' ho.1
      | some E' => exact congrArg some (ho.2.unique ho'.2)
  holds hE' := by
    rcases hE'.2.eq_or_matches with rfl | ⟨Bs, hBs, hmatches⟩
    · exact hE
    · exact hE.of_matches hP (hBss Bs hBs) hmatches

/-! ## From one step to the next -/

section

variable (hP : Hereditary c base P) (halike : L.Alike c base P L')

include hP halike

theorem agree_infer (hX : P X) (hE : E.Within P) :
    Outcomes.Agree (Bindings.Within P) (L.infer free K X E) (L'.infer free K X E) := by
  cases K with
  | named => exact Outcomes.agree_pure hE
  | param q =>
    refine Outcomes.agree_pure ?_
    split
    · exact hE.insert hX
    · exact hE
  | app d As =>
    have hargs : ∀ Ts, L.Order X Ts → ∀ Bs ∈ Ts.filterMap (Tree.argsAs? d As.length), ∀ B ∈ Bs, P B := by
      intro Ts hTs Bs hBs B hB
      obtain ⟨T, hT, heq⟩ := List.mem_filterMap.1 hBs
      obtain ⟨rfl, -⟩ := Tree.argsAs?_eq_some_iff.1 heq
      exact hP.args (hP.supertype hX (halike.sound X Ts hTs _ hT)) hB
    constructor
    · rintro o o' ⟨Ts, hTs, ho⟩ ⟨Us, hUs, ho'⟩
      rw [← halike.order X Ts Us hX hTs hUs] at ho'
      exact (agree_matchingOneOf hP (hargs Ts hTs) hE).eq ho ho'
    · rintro E' ⟨Ts, hTs, hE'⟩
      exact (agree_matchingOneOf hP (hargs Ts hTs) hE).holds hE'

section

variable {x x' : Bindings → Param → Outcomes Bindings}
  (hx : ∀ E p, E.Within P → Outcomes.Agree (Bindings.Within P) (x E p) (x' E p))

include hx

theorem agree_expandOne (hX : P X) (hE : E.Within P) :
    Outcomes.Agree (Bindings.Within P) (L.expandOne free f x X E K) (L'.expandOne free f x' X E K) := by
  unfold Hierarchy.expandOne
  split
  · exact (agree_infer hP halike hX hE).bind fun E' hE' =>
      Outcomes.agree_foldlM hE' fun E hE p _ => hx E p hE
  · exact Outcomes.agree_pure hE

theorem agree_expandEach (hE : E.Within P) :
    Outcomes.Agree (Bindings.Within P) (L.expandEach free f x E p) (L'.expandEach free f x' E p) := by
  unfold Hierarchy.expandEach
  rw [halike.constraints]
  split
  · rename_i hp
    exact Outcomes.agree_foldlM hE fun E' hE' K _ => agree_expandOne hP halike hx (hE p hp) hE'
  · exact Outcomes.agree_pure hE

end

theorem agree_expandTo {n : Nat} {visiting : List Param} (hE : E.Within P) :
    Outcomes.Agree (Bindings.Within P) (L.expandTo free f n visiting E p)
      (L'.expandTo free f n visiting E p) := by
  induction n generalizing visiting E p with
  | zero => exact ⟨fun ho ho' => Eq.trans ho (Eq.symm ho'), nofun⟩
  | succ n ih =>
    unfold Hierarchy.expandTo
    split
    · exact Outcomes.agree_pure hE
    · exact agree_expandEach hP halike (fun E p hE => ih hE) hE

theorem agree_unify (hBs : ∀ B ∈ Bs, P B) :
    Outcomes.Agree (Bindings.Within P) (L.unify free f As Bs) (L'.unify free f As Bs) :=
  (agree_matching hP hBs).bind fun _ hE =>
    Outcomes.agree_foldlM hE fun _ hE _ _ => agree_expandTo hP halike hE

theorem agree_fill (hE : E.Within P) :
    Outcomes.Agree (Bindings.Within P) (L.fill d free Fs E) (L'.fill d free Fs E) := by
  refine (agree_unify hP halike fun B hB => ?_).bind fun E' hE' => Outcomes.agree_given fun _ => hE'
  obtain ⟨pair, hpair, rfl⟩ := List.mem_map.1 hB
  obtain ⟨i, -, -, hi, himage⟩ := Bindings.mem_openPairs.1 hpair
  exact himage ▸ hE _ hi

theorem agree_closeThrough {own : List Param} (hA : P A) :
    Outcomes.Agree (fun _ => True) (c.closeThrough base L d own free Fs A B)
      (c.closeThrough base L' d own free Fs A B) :=
  (agree_unify hP halike fun _ hX => hP.args hA hX).bind fun _ hE =>
    (agree_fill hP halike hE).bind fun _ _ => Outcomes.agree_given fun _ => trivial

theorem agree_closeOpen (hA : P A) :
    Outcomes.Agree (fun _ => True) (c.closeOpen base L d free Fs O A)
      (c.closeOpen base L' d free Fs O A) := by
  refine ⟨?_, fun _ => trivial⟩
  rintro o o' ⟨closed, hclosed, ho⟩ ⟨closed', hclosed', ho'⟩
  have hsame : ∀ B, Offers c base O A B → closed B = closed' B := fun B hB =>
    (agree_closeThrough hP halike hA).eq (hclosed B hB) (hclosed' B hB)
  have htrees : (fun T => ∃ B, Offers c base O A B ∧ closed B = some T) =
      fun T => ∃ B, Offers c base O A B ∧ closed' B = some T := funext fun T =>
    propext (exists_congr fun B => and_congr_right fun hB => by rw [hsame B hB])
  rw [htrees] at ho
  exact (Outcomes.agree_theOne _).eq ho ho'

end

/-! ## Requests -/

/-- An implementation without parameters is resolved to the same, whatever inference would do. -/
theorem Catalog.resolutions_eq_of_params_eq_nil {o o' : Option Tree} (hnil : I.params = [])
    (ho : c.resolutions base L A I o) (ho' : c.resolutions base L' A I o') : o = o' := by
  obtain ⟨-, ho⟩ := ho.resolve_right fun hopen => hopen.1 hnil
  obtain ⟨-, ho'⟩ := ho'.resolve_right fun hopen => hopen.1 hnil
  exact (Outcomes.agree_given (P := fun _ => True) fun _ => trivial).eq ho ho'

/-- Where two hierarchies are alike above all that inference comes across, a request is resolved to the
same in both. -/
theorem Catalog.resolutions_eq {o o' : Option Tree} (hP : Hereditary c base P)
    (halike : L.Alike c base P L') (hA : P A) (ho : c.resolutions base L A I o)
    (ho' : c.resolutions base L' A I o') : o = o' := by
  by_cases hnil : I.params = []
  · exact resolutions_eq_of_params_eq_nil hnil ho ho'
  · obtain ⟨-, d, info, hd, hinfo, ho⟩ := ho.resolve_left fun hclosed => hnil hclosed.1
    obtain ⟨-, d', info', hd', hinfo', ho'⟩ := ho'.resolve_left fun hclosed => hnil hclosed.1
    obtain rfl := Option.some.inj (hd.symm.trans hd')
    obtain rfl := Option.some.inj (hinfo.symm.trans hinfo')
    exact (agree_closeOpen hP halike hA).eq ho ho'

/-- In the order in which the catalog finds supertypes, a request is resolved to one tree at most. -/
theorem Catalog.resolutions_unique {o o' : Option Tree} (ho : c.resolutions base (c.hierarchy base) A I o)
    (ho' : c.resolutions base (c.hierarchy base) A I o') : o = o' := by
  have hall : Hereditary c base fun _ => True := ⟨fun _ _ => trivial, fun _ _ => trivial⟩
  have halike : (c.hierarchy base).Alike c base (fun _ => True) (c.hierarchy base) :=
    ⟨fun _ _ hTs _ hT => (DepthFirst.mem_iff hTs).1 hT,
      fun _ _ _ _ hTs hUs _ _ => by rw [DepthFirst.unique hTs hUs], rfl⟩
  exact resolutions_eq hall halike trivial ho ho'

end Generics
