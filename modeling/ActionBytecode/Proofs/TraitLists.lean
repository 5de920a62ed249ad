/-
  ActionBytecode — lists of traits on the wire.

  A list of traits is written with the indices of a unit and read with the tables that were written
  of it.  It comes back with each handle as its place on the wire and each private namespace
  numbered by its index, and nothing after it is touched — unless a slot has the global namespace
  as its default.  This one has the index 0, which stands for no default, so the slot is read
  without its default, and the byte that follows the index is taken for what comes next
  (`traitEntry_of_global`).

  `traits_read_back_iff`: a list of traits comes back exactly when it has no such slot.
-/
import ActionBytecode.Proofs.Reading

namespace ActionBytecode

/-- The trait can be written with the given indices, and its numbers can be read. -/
structure Trait.Registered (a : Indexing) (metadataCount : Nat) (t : Trait) : Prop where
  number : t.member.number.toNat < countLimit
  uses : ∀ use ∈ t.uses, a.Covers use
  metadata : ∀ i ∈ t.metadata, i.toNat < metadataCount
  references : t.metadata.length < countLimit

theorem isU30_of_lt {value : UInt32} (h : value.toNat < countLimit) : IsU30 value := by
  have hn : value.toNat < 0x40000000 := Nat.lt_trans h (by decide)
  rw [← UInt32.ofNat_toNat (x := value)]
  exact (isU30_ofNat hn).2 h

theorem Trait.defaultsToGlobal_iff {t : Trait} : t.defaultsToGlobal = true ↔
    ∃ kind number type, t.member = .slot kind number type (some (.nspace .global)) := by
  unfold defaultsToGlobal
  constructor
  · intro h
    split at h
    · next kind number type ns hm =>
      obtain rfl : ns = .global := by simpa using h
      exact ⟨kind, number, type, hm⟩
    · cases h
  · rintro ⟨kind, number, type, hm⟩
    rw [hm]
    simp

namespace Indexing

/-- Namespaces with indices stay apart on the wire. -/
theorem injOn_onWire (a : Indexing) :
    Set.InjOn a.onWire.namespaces {ns | ns ∈ a.namespaces} := by
  intro x hx y hy h
  obtain ⟨hkind, hname, hid⟩ := Namespace.ext_of_ofKind h
  by_cases hp : x.kind = .privateMembers
  · exact (List.idxOf_inj hx).1 (hid hp)
  · refine Namespace.ext hkind hname ?_
    rw [x.privateId_eq_zero hp, y.privateId_eq_zero (hkind ▸ hp)]

/-- The default of a slot that is the global namespace is written as no default, and a byte. -/
theorem memberBytes_of_global {a : Indexing} (closed : a.Closed) {kind : SlotKind}
    {number : UInt32} {type : Multiname} {bytes : Bytes}
    (h : a.memberBytes (.slot kind number type (some (.nspace .global))) = .ok bytes) :
    ∃ plain, a.memberBytes (.slot kind number type none) = .ok plain ∧
      bytes = plain ++ [NamespaceKind.ordinary.byte] := by
  obtain ⟨i, hi, h⟩ := bind_eq_ok.1 h
  obtain ⟨value, hv, h⟩ := bind_eq_ok.1 h
  obtain ⟨j, hj, hv⟩ := bind_eq_ok.1 hv
  have hzero : j = 0 := (idxOf_of_getElem? (Numbering.id_eq_ok.1 hj)).symm.trans
    (idxOf_of_getElem? closed.global)
  refine ⟨_, bind_eq_ok.2 ⟨i, hi, rfl⟩, ?_⟩
  rw [← pure_eq_ok.1 h, ← pure_eq_ok.1 hv, hzero, ← List.append_assoc]
  rfl

end Indexing

namespace Reader

/-! ## Repetition -/

section
variable {α : Type} {read : Reader α}

theorem timesOnto_eq (n : Nat) (done : List α) :
    timesOnto read n done = times n read >>= fun as => pure (done.reverse ++ as) := by
  induction n generalizing done with
  | zero => simp [times, timesOnto]
  | succ n ih =>
    rw [times, timesOnto, timesOnto, bind_assoc]
    congr 1
    funext a
    simp [ih (a :: done), ih [a]]

theorem times_succ (n : Nat) :
    times (n + 1) read = read >>= fun a => times n read >>= fun as => pure (a :: as) := by
  rw [times, timesOnto]
  congr 1
  funext a
  exact timesOnto_eq n [a]

end

/-! ## The default that is lost -/

section
variable {tables : Tables} {a : Indexing} {r : Renaming} {bytes : Bytes} {count : Nat}
  (h : tables.Holds a r)
include h

/-- The member of a trait that is read stands behind its name and its tag. -/
theorem member_of_traitEntry {name : Multiname} {i : Nat} (hi : a.multinameIndex name = .ok i)
    {bits : UInt8} {kind : MemberKind} (hk : MemberKind.ofTag? (bits &&& 0x0f) = some kind)
    {start : Nat} {more : Bytes} {found : Trait} {later : Cursor}
    (hr : traitEntry tables ⟨start, Bytes.reference i ++ bits :: more⟩ = .ok found later) :
    ∃ cursor, member tables kind ⟨start + (Bytes.reference i).length + 1, more⟩ =
      .ok found.member cursor := by
  rw [traitEntry, run_bind_of_ok ((reads_multiname h.constants hi start).ok trivial _)] at hr
  obtain ⟨_, _, hs, hr⟩ := run_bind_eq_ok.1 hr
  cases hs
  obtain ⟨_, _, hb, hr⟩ := run_bind_eq_ok.1 hr
  cases hb
  obtain ⟨_, _, hkind, hr⟩ := run_bind_eq_ok.1 hr
  rw [hk] at hkind
  cases hkind
  obtain ⟨_, cursor, hmember, hr⟩ := run_bind_eq_ok.1 hr
  -- the metadata that follow do not change it
  split at hr
  all_goals
    obtain ⟨metadata, _, -, hr⟩ := run_bind_eq_ok.1 hr
    cases hr
    exact ⟨cursor, hmember⟩

variable (closed : a.Closed)
include closed

/-- **A slot with the global namespace as its default does not come back.** -/
theorem traitEntry_of_global {t : Trait} (hw : a.traitBytes count t = .ok bytes)
    (hn : IsU30 t.member.number) (hg : t.defaultsToGlobal = true) {start : Nat} {rest : Bytes}
    {found : Trait} {later : Cursor}
    (hr : traitEntry tables ⟨start, bytes ++ rest⟩ = .ok found later) : found ≠ t.rename r := by
  obtain ⟨kind, number, type, hm⟩ := Trait.defaultsToGlobal_iff.1 hg
  obtain ⟨i, hi, hw⟩ := bind_eq_ok.1 hw
  obtain ⟨mbytes, hmbytes, hw⟩ := bind_eq_ok.1 hw
  obtain ⟨metadata, -, hw⟩ := ite_bind_eq_ok.1 hw
  rw [hm] at hmbytes hn
  obtain ⟨plain, hplain, rfl⟩ := Indexing.memberBytes_of_global closed hmbytes
  rw [← pure_eq_ok.1 hw] at hr
  simp only [List.append_assoc, List.cons_append, List.nil_append] at hr
  have hkind : MemberKind.ofTag? ((t.member.kind.tag ||| t.attributeBits) &&& 0x0f) =
      some (.slot kind) := by
    rw [t.bits_tag.1, MemberKind.ofTag?_tag, hm]
    rfl
  obtain ⟨cursor, hmember⟩ := member_of_traitEntry h hi hkind hr
  -- the slot is read as if it had no default
  have hread := (reads_member h closed (t := { t with member := .slot kind number type none })
    hplain rfl (start + (Bytes.reference i).length + 1)).ok hn
    (NamespaceKind.ordinary.byte :: (metadata ++ rest))
  have hfound : found.member = .slot kind number (type.rename r.namespaces) none :=
    (EStateM.Result.ok.inj (hmember.symm.trans hread)).1
  intro he
  rw [he, Trait.rename, hm] at hfound
  cases hfound

/-- Traits that come back have no such slot among them. -/
theorem times_traitEntry (hc : tables.metadataCount = count) (hs : count < countLimit)
    {list : List Trait} {pieces : List Bytes}
    (hw : List.Forall₂ (fun t bs => a.traitBytes count t = .ok bs) list pieces)
    (hl : ∀ t ∈ list, t.Legible) : ∀ {start : Nat} {rest : Bytes} {later : Cursor},
      times list.length (traitEntry tables) ⟨start, pieces.flatten ++ rest⟩ =
        .ok (list.map (·.rename r)) later →
      ∀ t ∈ list, t.defaultsToGlobal = false := by
  induction hw with
  | nil => simp
  | @cons t bs list pieces hbs _ ih =>
    intro start rest later hr
    rw [List.forall_mem_cons] at hl
    rw [List.length_cons, times_succ, List.flatten_cons, List.append_assoc] at hr
    obtain ⟨found, middle, hfound, hr⟩ := run_bind_eq_ok.1 hr
    obtain ⟨others, last, hothers, hr⟩ := run_bind_eq_ok.1 hr
    obtain ⟨rfl, rfl⟩ : found = t.rename r ∧ others = list.map (·.rename r) := by
      simpa using (EStateM.Result.ok.inj hr).1
    have ht : t.defaultsToGlobal = false := by
      by_contra hg
      exact traitEntry_of_global h closed hbs hl.1.number (eq_true_of_ne_false hg) hfound rfl
    -- this trait took its own bytes, so the others are read from theirs
    cases hfound.symm.trans ((reads_trait h closed hc hs hbs ht start).ok hl.1 _)
    exact List.forall_mem_cons.2 ⟨ht, ih hl.2 hothers⟩

/-- **A list of traits comes back exactly when no default in it is the global namespace.** -/
theorem traits_eq_ok_iff (hc : tables.metadataCount = count) (hs : count < countLimit)
    {list : List Trait} (hw : a.traitsBytes count list = .ok bytes) (hl : LegibleTraits list)
    (start : Nat) (rest : Bytes) :
    traits tables ⟨start, bytes ++ rest⟩ =
        .ok (list.map (·.rename r)) ⟨start + bytes.length, rest⟩ ↔
      ∀ t ∈ list, t.defaultsToGlobal = false := by
  constructor
  · intro hr
    obtain ⟨counted, hcounted, hw⟩ := bind_eq_ok.1 hw
    obtain ⟨pieces, hpieces, hw⟩ := bind_eq_ok.1 hw
    rw [← pure_eq_ok.1 hw, List.append_assoc, traits, Reader.list,
      run_bind_of_ok ((reads_index hcounted start).ok hl.1 _)] at hr
    exact times_traitEntry h closed hc hs (mapM_eq_ok.1 hpieces) hl.2 hr
  · intro hg
    exact (reads_traits h closed hc hs hw hg start).ok hl rest

end

end Reader

/-! ## The tables of a unit -/

/-- **A list of traits survives the wire exactly when no default in it is the global namespace.**
    It is written with the indices of a unit and read with the tables that were written of them:
    private namespaces are told apart as before, and handles are places on the wire. -/
theorem traits_read_back_iff {unit : CodeUnit} {debug : Bool} {order : List ClassHandle}
    {a : Indexing} (ha : unit.index debug order = .ok a) (hpool : a.toPool.Legible)
    (hm : a.methods.size < countLimit) (hc : a.classes.size < countLimit) {count : Nat}
    (hs : count < countLimit) {list : List Trait} (hl : list.length < countLimit)
    (ht : ∀ t ∈ list, t.Registered a count) :
    let tables := a.wireTables a.onWire.namespaces count
    Set.InjOn a.onWire.namespaces {ns | ns ∈ a.namespaces} ∧
    (∃ constants, a.poolBytes = .ok constants ∧ ∀ start rest,
      Reader.pool ⟨start, constants ++ rest⟩ =
        .ok tables.pool ⟨start + constants.length, rest⟩) ∧
    ∃ bytes, a.traitsBytes count list = .ok bytes ∧ ∀ start rest,
      (Reader.traits tables ⟨start, bytes ++ rest⟩ =
          .ok (list.map (·.rename a.onWire)) ⟨start + bytes.length, rest⟩ ↔
        ∀ t ∈ list, t.defaultsToGlobal = false) := by
  intro tables
  have closed := (CodeUnit.index_spec ha).1
  have hholds : tables.Holds a a.onWire := a.locates_onWire.holds count hpool hm hc
  have hcounts : ∀ n ∈ traitCounts list, n < countLimit :=
    List.forall_mem_cons.2 ⟨hl, List.forall_mem_map.2 fun t hmem => (ht t hmem).references⟩
  have huses : ∀ use ∈ list.flatMap Trait.uses, a.Covers use := by
    intro use hu
    obtain ⟨t, hmem, hu⟩ := List.mem_flatMap.1 hu
    exact (ht t hmem).uses use hu
  obtain ⟨constants, hconstants⟩ := Indexing.succeeds_poolBytes closed hpool
  obtain ⟨bytes, hbytes⟩ := (Indexing.succeeds_traitsBytes huses hcounts).2
    fun t hmem => (ht t hmem).metadata
  refine ⟨a.injOn_onWire, ⟨constants, hconstants, fun start =>
    (Reader.reads_pool closed a.locates_onWire.namespaces hconstants start).ok hpool⟩,
    bytes, hbytes, Reader.traits_eq_ok_iff hholds closed rfl hs hbytes ⟨hl, fun t hmem => ?_⟩⟩
  exact ⟨isU30_of_lt (ht t hmem).number, (ht t hmem).references⟩

/-- A variable and a constant in a private namespace, a getter and a class. -/
def memberTraits : List Trait :=
  let hidden : Namespace := .ofKind .privateMembers "p" 7
  [{ name := .qualified false hidden "x", isFinal := true, metadata := [0]
     member := .slot .variable 3 .any (some (.nspace hidden)) },
    { name := .qualified false hidden "y", member := .slot .constant 0 .any (some (.double .nan)) },
    { name := .any, isOverride := true, member := .access .getter 1 ⟨0⟩ },
    { name := .any, member := .classBinding 2 ⟨0⟩ }]

/-- A unit whose script has these traits. -/
def memberUnit : CodeUnit where
  methods := #[{}]
  methodOrder := [⟨0⟩]
  classes := #[{ name := .any, superName := .any, constructor := ⟨0⟩, staticInit := ⟨0⟩ }]
  classOrder := [⟨0⟩]
  scripts := [⟨⟨0⟩, memberTraits⟩]
  metadata := [⟨"m", []⟩]

theorem registered_memberTraits {a : Indexing} (ha : memberUnit.index false [⟨0⟩] = .ok a) :
    ∀ t ∈ memberTraits, t.Registered a 1 := by
  have hnumbers : ∀ t ∈ memberTraits, t.member.number.toNat < countLimit ∧
      t.metadata.all (·.toNat < 1) ∧ t.metadata.length < countLimit := by decide
  intro t ht
  obtain ⟨hnumber, hmetadata, hreferences⟩ := hnumbers t ht
  simp only [List.all_eq_true, decide_eq_true_eq] at hmetadata
  refine ⟨hnumber, fun use hu => (CodeUnit.index_spec ha).2.2.1 use ?_, hmetadata, hreferences⟩
  have hscript : use ∈ Script.uses ⟨⟨0⟩, memberTraits⟩ :=
    List.mem_cons_of_mem _ (List.mem_flatMap.2 ⟨t, ht, hu⟩)
  simp only [CodeUnit.uses, List.mem_append]
  exact .inl (.inl (.inr (List.mem_flatMap.2 ⟨_, List.mem_singleton_self _, hscript⟩)))

theorem legible_memberUnit {a : Indexing} (ha : memberUnit.index false [⟨0⟩] = .ok a) :
    a.toPool.Legible ∧ a.methods.size < countLimit ∧ a.classes.size < countLimit := by
  have hsmall : ∀ a ∈ (memberUnit.index false [⟨0⟩]).toOption,
      (∀ n ∈ a.toPool.sizes, n < countLimit) ∧
      (∀ s ∈ a.toPool.strings, (Utf8.encode s).length < countLimit) ∧
      (∀ set ∈ a.toPool.namespaceSets, set.members.length < countLimit) ∧
      (∀ name ∈ a.toPool.multinames, name.application? = none) ∧
      a.methods.size < countLimit ∧ a.classes.size < countLimit := by decide +kernel
  obtain ⟨hsizes, hstrings, hsets, hplain, hm, hc⟩ := hsmall a (by rw [ha]; rfl)
  exact ⟨⟨hsizes, hstrings, hsets, fun _ _ h => nomatch hplain _ h⟩, hm, hc⟩

/-- These traits come back. -/
theorem traits_memberTraits : ∃ a bytes, memberUnit.index false [⟨0⟩] = .ok a ∧
    a.toPool.Legible ∧ (∀ t ∈ memberTraits, t.Registered a 1) ∧
    a.traitsBytes 1 memberTraits = .ok bytes ∧ ∀ rest,
      Reader.traits (a.wireTables a.onWire.namespaces 1) ⟨0, bytes ++ rest⟩ =
        .ok (memberTraits.map (·.rename a.onWire)) ⟨0 + bytes.length, rest⟩ := by
  have hindex : (memberUnit.index false [⟨0⟩]).toOption.isSome := by decide +kernel
  cases ha : memberUnit.index false [⟨0⟩] with
  | error fault =>
    rw [ha] at hindex
    cases hindex
  | ok a =>
    obtain ⟨hpool, hm, hc⟩ := legible_memberUnit ha
    have ht := registered_memberTraits ha
    obtain ⟨-, -, bytes, hbytes, hread⟩ := traits_read_back_iff ha hpool hm hc (by decide)
      (by decide) ht
    exact ⟨a, bytes, rfl, hpool, ht, hbytes, fun rest => (hread 0 rest).2 (by decide)⟩

/-- A variable with the global namespace as its default. -/
def globalSlot : Trait where
  name := .any
  member := .slot .variable 0 .any (some (.nspace .global))

/-- **The variable is read without its default, and one byte is left over.** -/
theorem traits_globalSlot : ∃ a, CodeUnit.empty.index false [] = .ok a ∧ a.toPool.Legible ∧
    globalSlot.Registered a 0 ∧ a.traitsBytes 0 [globalSlot] = .ok [1, 0, 0, 0, 0, 0, 8] ∧
    ∀ start rest, Reader.traits (a.wireTables a.onWire.namespaces 0)
        ⟨start, [1, 0, 0, 0, 0, 0, 8] ++ rest⟩ =
      .ok [{ globalSlot with member := .slot .variable 0 .any none }] ⟨start + 6, 8 :: rest⟩ := by
  let a : Indexing := { classes := .ofList [] }
  have ha : CodeUnit.empty.index false [] = .ok a := rfl
  have hpool : a.toPool.Legible := by
    have hplain : ∀ name ∈ a.toPool.multinames, name.application? = none := by decide
    exact ⟨by decide, by decide, by decide, fun _ _ h => nomatch hplain _ h⟩
  refine ⟨a, ha, hpool, ⟨by decide, ?_, List.forall_mem_nil _, by decide⟩, rfl,
    fun start rest => ?_⟩
  · have huses : globalSlot.uses =
        [.multiname .any, .multiname .any, .value (.nspace .global)] := rfl
    simp only [huses, List.forall_mem_cons]
    exact ⟨List.mem_singleton_self _, List.mem_singleton_self _, List.mem_singleton_self _,
      by simp⟩
  · -- the first six bytes are those of the variable without a default
    have hplain : a.traitsBytes 0 [{ globalSlot with member := .slot .variable 0 .any none }] =
        .ok [1, 0, 0, 0, 0, 0] := rfl
    have hholds := a.locates_onWire.holds 0 hpool (by decide) (by decide)
    exact (Reader.reads_traits hholds (CodeUnit.index_spec ha).1 rfl (by decide) hplain
      (by decide) start).ok (by decide) (8 :: rest)

end ActionBytecode
