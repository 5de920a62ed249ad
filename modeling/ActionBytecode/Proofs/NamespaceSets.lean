/-
  ActionBytecode — sets of namespaces as sets.

  The set of a list forgets the order and the repetitions of the list and nothing else
  (`NamespaceSet.ofList_exact`): two lists give one set exactly when they have the same members, a
  search finds exactly these, and there are as many members as the list has distinct ones.

  The members of the set are what is left when the list is sorted, by whatever means, and a member
  that is equal to the one before it is dropped (`NamespaceSet.members_ofList_of_sorted`).
-/
import ActionBytecode.Name.NamespaceSet
import Mathlib.Data.Finset.Card
import Mathlib.Data.List.Destutter

namespace ActionBytecode

namespace NamespaceSet

/-! ## Sorted lists without repetitions -/

/-- Dropping what is equal to the one before it keeps the members of a list. -/
theorem mem_destutter_ne {x : Namespace} {ms : List Namespace} :
    x ∈ ms.destutter (· ≠ ·) ↔ x ∈ ms := by
  cases ms with
  | nil => simp
  | cons m ms =>
    rw [List.destutter_cons']
    induction ms generalizing m with
    | nil => simp
    | cons m' ms ih =>
      by_cases hm : m = m'
      · subst hm
        rw [List.destutter'_cons_neg _ (by simp), ih]
        simp
      · rw [List.destutter'_cons_pos _ hm, List.mem_cons, ih]
        simp

/-- In a sorted list equal members are neighbours, so none is left twice. -/
theorem ascending_destutter_ne {ms : List Namespace}
    (h : ms.Pairwise fun a b => compare a b ≠ .gt) :
    (ms.destutter (· ≠ ·)).Pairwise fun a b => compare a b = .lt := by
  have hsorted := List.isChain_iff_getElem.1
    (h.sublist (List.destutter_sublist (· ≠ ·) ms)).isChain
  have hdistinct := List.isChain_iff_getElem.1 (List.isChain_destutter (· ≠ ·) ms)
  have hlt : (ms.destutter (· ≠ ·)).IsChain fun a b => compare a b = .lt := by
    refine List.isChain_iff_getElem.2 fun i hi => ?_
    cases hc : compare (ms.destutter (· ≠ ·))[i] (ms.destutter (· ≠ ·))[i + 1] with
    | lt => rfl
    | eq => exact absurd (Namespace.compare_eq_iff_eq.1 hc) (hdistinct i hi)
    | gt => exact absurd hc (hsorted i hi)
  have : IsTrans Namespace fun a b => compare a b = .lt := ⟨fun _ _ _ => Std.TransCmp.lt_trans⟩
  exact hlt.pairwise

/-- **The members of a set are its list, sorted and with repetitions dropped.** -/
theorem members_ofList_of_sorted {ms sorted : List Namespace} (hperm : sorted.Perm ms)
    (h : sorted.Pairwise fun a b => compare a b ≠ .gt) :
    (ofList ms).members = sorted.destutter (· ≠ ·) := by
  refine eq_of_mem_iff (ofList ms).ascending (ascending_destutter_ne h) fun x => ?_
  rw [mem_destutter_ne, hperm.mem_iff]
  exact mem_ofList

/-! ## Members -/

theorem size_ofList (ms : List Namespace) : (ofList ms).size = ms.toFinset.card := by
  have hmembers : (ofList ms).members.toFinset = ms.toFinset := by
    ext x
    rw [List.mem_toFinset, List.mem_toFinset]
    exact mem_ofList
  rw [← hmembers, List.toFinset_card_of_nodup (ofList ms).nodup_members]
  rfl

theorem ofList_eq_iff {ms ms' : List Namespace} :
    ofList ms = ofList ms' ↔ ∀ ns, ns ∈ ms ↔ ns ∈ ms' := by
  simp only [ext_iff_mem, mem_ofList]

/-- **The set of a list is the set of its members.**  It is the list, sorted and with repetitions
    dropped, and nothing but the members of the list can be told from it. -/
theorem ofList_exact (ms : List Namespace) :
    (∀ sorted : List Namespace, sorted.Perm ms →
      sorted.Pairwise (fun a b => compare a b ≠ .gt) →
      (ofList ms).members = sorted.destutter (· ≠ ·)) ∧
    (∀ ms', ofList ms = ofList ms' ↔ ∀ ns, ns ∈ ms ↔ ns ∈ ms') ∧
    (∀ ns, (ofList ms).contains ns = true ↔ ns ∈ ms) ∧
    (ofList ms).size = ms.toFinset.card ∧
    (ofList ms = empty ↔ ms = []) := by
  refine ⟨fun _ => members_ofList_of_sorted, fun _ => ofList_eq_iff, fun ns => ?_, size_ofList ms,
    ?_⟩
  · rw [contains_iff, mem_ofList]
  · have hempty : empty = ofList [] := rfl
    rw [hempty, ofList_eq_iff, List.eq_nil_iff_forall_not_mem]
    simp

/-- Two private namespaces of one name, one of them twice, and out of order. -/
theorem ofList_exact_privates :
    let p (id : Nat) := Namespace.ofKind .privateMembers "p" id
    [.global, p 1, p 2, p 2].Perm [p 2, .global, p 1, p 2] ∧
    (ofList [p 2, .global, p 1, p 2]).members = [.global, p 1, p 2] ∧
    ofList [p 2, .global, p 1, p 2] = ofList [p 1, p 2, .global] ∧
    (ofList [p 2, .global, p 1, p 2]).contains (p 2) = true ∧
    (ofList [p 2, .global, p 1, p 2]).contains (p 3) = false ∧
    (ofList [p 2, .global, p 1, p 2]).size = 3 := by
  intro p
  obtain ⟨hsorted, heq, hcontains, hsize, -⟩ := ofList_exact [p 2, .global, p 1, p 2]
  have hperm : [.global, p 1, p 2, p 2].Perm [p 2, .global, p 1, p 2] := by decide
  refine ⟨hperm, hsorted _ hperm (by decide), ?_, ?_, ?_, ?_⟩
  · exact (heq _).2 fun ns => by simp; tauto
  · exact (hcontains _).2 (by simp)
  · exact Bool.eq_false_iff.2 fun h => absurd ((hcontains _).1 h) (by decide)
  · rw [hsize]
    decide

end NamespaceSet

end ActionBytecode
