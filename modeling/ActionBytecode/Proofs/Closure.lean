/-
  ActionBytecode — the constants of a unit.

  The pool of a unit has three origins: it is read, it grows as things are created, or it is made
  anew when the unit is written.  Each of them gives a closed pool (`closed_of_decode`,
  `Pool.Enlarges`, `Indexing.Closed.toPool`), so every unit that can be reached has one.
-/
import ActionBytecode.Proofs.Constants
import ActionBytecode.Proofs.Reachability

namespace ActionBytecode

/-! ## Pools that are made anew -/

namespace Indexing

variable {a : Indexing}

/-- The name `*` needs no index, since it is at index 0. -/
theorem mem_strings_of_covers {s : String} (h : a.CoversName (some s)) : s ∈ a.toPool.strings := by
  rw [toPool, List.mem_toArray, List.mem_cons]
  by_cases hs : s = anyName
  · exact .inl hs
  · exact .inr (h s (spelled?_eq_some.2 ⟨rfl, hs⟩))

/-- **The pool of a closed indexing is closed.** -/
theorem Closed.toPool (h : a.Closed) : a.toPool.Closed where
  int := rfl
  uint := rfl
  double := rfl
  string := rfl
  global := by rw [Indexing.toPool, List.getElem?_toArray, h.global]
  empty := by rw [Indexing.toPool, List.getElem?_toArray, h.empty]
  any := by rw [Indexing.toPool, List.getElem?_toArray, h.any]
  names ns hns := mem_strings_of_covers (h.names ns (List.mem_toArray.1 hns))
  members set hset ns hns :=
    List.mem_toArray.2 (h.members set (List.mem_toArray.1 hset) ns hns)
  parts name hname := by
    obtain ⟨i, hi⟩ := List.getElem?_of_mem (List.mem_toArray.1 hname)
    have hparts := h.parts i name hi
    have hearlier : ∀ part ∈ a.multinames.values.take i, part ∈ a.toPool.multinames :=
      fun part hp => List.mem_toArray.2 (List.mem_of_mem_take hp)
    cases name with
    | qualified attr ns name =>
      exact ⟨List.mem_toArray.2 hparts.2, mem_strings_of_covers hparts.1⟩
    | runtimeQualified attr name => exact mem_strings_of_covers hparts
    | runtime attr => trivial
    | ambiguous attr name set =>
      exact ⟨mem_strings_of_covers hparts.1, List.mem_toArray.2 hparts.2⟩
    | late attr set => exact List.mem_toArray.2 hparts
    | applied base params =>
      exact ⟨hearlier base hparts.1, fun p hp => hearlier p (hparts.2 p hp)⟩

end Indexing

/-! ## Units -/

namespace CodeUnit

variable {unit : CodeUnit}

theorem closed_of_decode {bytes : Bytes} (h : CodeUnit.decode bytes = .ok unit) :
    unit.pool.Closed := by
  obtain ⟨parsed, cursor, methods, hp, -, rfl⟩ := examined_of_decode h
  obtain ⟨⟨start, next, hpool⟩, -⟩ := of_read hp
  obtain ⟨_, -, hsound⟩ := Reader.yields_pool start _ next (Nat.le_refl _) hpool
  exact hsound.toClosed

theorem closed_run (h : unit.pool.Closed) (operation : Operation) :
    (operation.run unit).pool.Closed := by
  rcases operation.run_cases unit with hk | hj | hj | ⟨options, plain, rebuilt, rfl, -, hr, he⟩
  · exact hk.pool.closed h
  · exact hj.pool.closed h
  · exact hj.pool.closed h
  · have hrun : (Operation.encode options).run unit = plain.commit rebuilt := Edit.after_of_ok he
    obtain ⟨order, s, hr⟩ := rebuild_eq_ok.1 hr
    rw [hrun]
    exact (index_spec hr.index_eq).1.toPool

end CodeUnit

/-- **The pool of a unit that can be reached is closed.** -/
theorem Reachable.pool_closed {unit : CodeUnit} (h : Reachable unit) : unit.pool.Closed := by
  induction h with
  | empty => exact Pool.closed_initial
  | decode h => exact CodeUnit.closed_of_decode h
  | step _ _ ih => exact CodeUnit.closed_run ih _

/-! A method that gives lists of lists, in a unit that was written. -/

/-- The type of lists with the given elements. -/
def listOf (element : Multiname) : Multiname :=
  .applied (.qualified false (.ofKind .package "__AS3__.vec" 0) "Vector") [element]

/-- The unit of the method. -/
def nestedUnit : CodeUnit :=
  [.createMethod { signature := { returnType := listOf (listOf .any) } }, .encode {}].foldl
    (fun unit (operation : Operation) => operation.run unit) .empty

/-- With the outer type, the inner one is in the pool. -/
theorem mem_nestedUnit : listOf (listOf .any) ∈ nestedUnit.pool.multinames ∧
    listOf .any ∈ nestedUnit.pool.multinames := by
  have houter : listOf (listOf .any) ∈ nestedUnit.pool.multinames := by decide +kernel
  have hclosed := Reachable.pool_closed
    (show Reachable nestedUnit from ReachableBy.foldl (fun _ _ _ => trivial) .empty)
  exact ⟨houter, (hclosed.parts _ houter).2 _ (List.mem_singleton_self _)⟩

end ActionBytecode
