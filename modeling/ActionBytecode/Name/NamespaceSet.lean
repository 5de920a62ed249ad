/-
  ActionBytecode — sets of namespaces.

  The members of a set stand in strictly ascending order, so two sets are equal exactly when
  they have the same members (`NamespaceSet.ext_iff_mem`).  `NamespaceSet.ofList` forgets the
  order and the repetitions of a list (`NamespaceSet.mem_ofList`).  A member is found by halving
  (`NamespaceSet.contains_iff`).
-/
import ActionBytecode.Name.Namespace

namespace ActionBytecode

/-- A set of namespaces, its members in strictly ascending order. -/
@[ext] structure NamespaceSet where
  members : List Namespace
  ascending : members.Pairwise fun a b => compare a b = .lt
  deriving DecidableEq

namespace NamespaceSet

/-- The set without members, at index 0 of its table. -/
def empty : NamespaceSet := ⟨[], .nil⟩

instance : Inhabited NamespaceSet := ⟨empty⟩

instance : Membership Namespace NamespaceSet := ⟨fun set ns => ns ∈ set.members⟩

theorem mem_def {ns : Namespace} {set : NamespaceSet} : ns ∈ set ↔ ns ∈ set.members := Iff.rfl

instance (ns : Namespace) (set : NamespaceSet) : Decidable (ns ∈ set) :=
  inferInstanceAs (Decidable (ns ∈ set.members))

/-- The number of members. -/
def size (set : NamespaceSet) : Nat := set.members.length

theorem nodup_members (set : NamespaceSet) : set.members.Nodup :=
  set.ascending.imp fun {_ _} hlt he => by
    rw [Namespace.compare_eq_iff_eq.2 he] at hlt
    cases hlt

/-! ## Search -/

/-- Whether `ns` is in an ascending list.  Of two halves the upper is searched, unless it starts
    above `ns`. -/
def search (ns : Namespace) (ms : List Namespace) : Bool :=
  if _ : 1 < ms.length then
    let half := ms.length / 2
    if compare ms[half] ns = .gt then search ns (ms.take half) else search ns (ms.drop half)
  else ms.any (compare · ns = .eq)
termination_by ms.length
decreasing_by all_goals simp only [List.length_take, List.length_drop]; omega

/-- Whether `ns` is a member. -/
def contains (set : NamespaceSet) (ns : Namespace) : Bool := search ns set.members

/-- The member at `i` parts an ascending list: what is below it stands before it. -/
theorem mem_take_or_mem_drop {ms : List Namespace} {x : Namespace} {i : Nat}
    (h : ms.Pairwise fun a b => compare a b = .lt) (hi : i < ms.length) (hx : x ∈ ms) :
    (x ∈ ms.take i ∧ compare ms[i] x = .gt) ∨ (x ∈ ms.drop i ∧ compare ms[i] x ≠ .gt) := by
  rw [← List.take_append_drop i ms, List.pairwise_append, List.drop_eq_getElem_cons hi,
    List.pairwise_cons] at h
  obtain ⟨-, ⟨above, -⟩, below⟩ := h
  rw [← List.take_append_drop i ms, List.mem_append, List.drop_eq_getElem_cons hi] at hx
  rcases hx with hx | hx
  · exact .inl ⟨hx, Std.OrientedCmp.gt_of_lt (below x hx _ List.mem_cons_self)⟩
  · refine .inr ⟨List.drop_eq_getElem_cons hi ▸ hx, ?_⟩
    rcases List.mem_cons.1 hx with rfl | hx
    · simp [Std.ReflCmp.compare_self]
    · simp [above x hx]

theorem search_iff {ns : Namespace} {ms : List Namespace}
    (h : ms.Pairwise fun a b => compare a b = .lt) : search ns ms = true ↔ ns ∈ ms := by
  fun_induction search ns ms with
  | case1 ms hlength half hgt ih =>
    rw [ih h.take]
    refine ⟨List.mem_of_mem_take, fun hmem => ?_⟩
    rcases mem_take_or_mem_drop h _ hmem with ⟨htake, -⟩ | ⟨-, hle⟩
    · exact htake
    · exact absurd hgt hle
  | case2 ms hlength half hle ih =>
    rw [ih h.drop]
    refine ⟨List.mem_of_mem_drop, fun hmem => ?_⟩
    rcases mem_take_or_mem_drop h _ hmem with ⟨-, hgt⟩ | ⟨hdrop, -⟩
    · exact absurd hgt hle
    · exact hdrop
  | case3 ms hlength =>
    simp [Namespace.compare_eq_iff_eq]

@[simp] theorem contains_iff {set : NamespaceSet} {ns : Namespace} :
    set.contains ns = true ↔ ns ∈ set :=
  search_iff set.ascending

/-! ## Insertion -/

/-- Put `ns` at its place in an ascending list, unless it is there. -/
def place (ns : Namespace) : List Namespace → List Namespace
  | [] => [ns]
  | m :: ms =>
    match compare ns m with
    | .lt => ns :: m :: ms
    | .eq => m :: ms
    | .gt => m :: place ns ms

theorem mem_place {ns x : Namespace} {ms : List Namespace} :
    x ∈ place ns ms ↔ x = ns ∨ x ∈ ms := by
  induction ms with
  | nil => simp [place]
  | cons m ms ih =>
    rw [place]
    split
    · simp
    · next h =>
      have := Namespace.compare_eq_iff_eq.1 h
      simp [this]
    · simp [ih, or_left_comm]

theorem ascending_place {ns : Namespace} {ms : List Namespace}
    (h : ms.Pairwise fun a b => compare a b = .lt) :
    (place ns ms).Pairwise fun a b => compare a b = .lt := by
  induction ms with
  | nil => simp [place]
  | cons m ms ih =>
    have hm := List.pairwise_cons.1 h
    rw [place]
    split
    · next hlt =>
      refine List.pairwise_cons.2 ⟨fun x hx => ?_, h⟩
      rcases List.mem_cons.1 hx with rfl | hx
      · exact hlt
      · exact Std.TransCmp.lt_trans hlt (hm.1 x hx)
    · exact h
    · next hgt =>
      refine List.pairwise_cons.2 ⟨fun x hx => ?_, ih hm.2⟩
      rcases mem_place.1 hx with rfl | hx
      · exact Std.OrientedCmp.lt_of_gt hgt
      · exact hm.1 x hx

/-- The set with `ns` as one more member. -/
def insert (ns : Namespace) (set : NamespaceSet) : NamespaceSet :=
  ⟨place ns set.members, ascending_place set.ascending⟩

/-- The set of the members of a list. -/
def ofList (members : List Namespace) : NamespaceSet :=
  members.foldr insert empty

@[simp] theorem mem_insert {ns x : Namespace} {set : NamespaceSet} :
    x ∈ insert ns set ↔ x = ns ∨ x ∈ set :=
  mem_place

@[simp] theorem mem_ofList {x : Namespace} {members : List Namespace} :
    x ∈ ofList members ↔ x ∈ members := by
  induction members with
  | nil => simp [ofList, empty, mem_def]
  | cons m ms ih =>
    have : ofList (m :: ms) = insert m (ofList ms) := rfl
    simp [this, ih]

/-! ## Extensionality -/

theorem eq_of_mem_iff {as bs : List Namespace}
    (ha : as.Pairwise fun a b => compare a b = .lt) (hb : bs.Pairwise fun a b => compare a b = .lt)
    (h : ∀ x, x ∈ as ↔ x ∈ bs) : as = bs := by
  induction as generalizing bs with
  | nil => exact (List.eq_nil_iff_forall_not_mem.2 fun x hx => by simpa using (h x).2 hx).symm
  | cons a as ih =>
    cases bs with
    | nil => simpa using (h a).1 List.mem_cons_self
    | cons b bs =>
      have ha' := List.pairwise_cons.1 ha
      have hb' := List.pairwise_cons.1 hb
      have self (x : Namespace) : compare x x ≠ .lt := by simp [Std.ReflCmp.compare_self]
      have head : a = b := by
        rcases List.mem_cons.1 ((h a).1 List.mem_cons_self) with hab | hab
        · exact hab
        rcases List.mem_cons.1 ((h b).2 List.mem_cons_self) with hba | hba
        · exact hba.symm
        exact absurd (Std.TransCmp.lt_trans (ha'.1 b hba) (hb'.1 a hab)) (self a)
      subst head
      congr 1
      refine ih ha'.2 hb'.2 fun x => ⟨fun hx => ?_, fun hx => ?_⟩
      · rcases List.mem_cons.1 ((h x).1 (List.mem_cons_of_mem a hx)) with rfl | hx'
        · exact absurd (ha'.1 x hx) (self x)
        · exact hx'
      · rcases List.mem_cons.1 ((h x).2 (List.mem_cons_of_mem a hx)) with rfl | hx'
        · exact absurd (hb'.1 x hx) (self x)
        · exact hx'

/-- **A set is determined by its members.** -/
theorem ext_iff_mem {s t : NamespaceSet} : s = t ↔ ∀ x, x ∈ s ↔ x ∈ t :=
  ⟨fun h _ => h ▸ Iff.rfl, fun h => NamespaceSet.ext (eq_of_mem_iff s.ascending t.ascending h)⟩

/-- The set in listings. -/
def text (set : NamespaceSet) : String :=
  "[" ++ String.intercalate ", " (set.members.map Namespace.text) ++ "]"

end NamespaceSet

end ActionBytecode
