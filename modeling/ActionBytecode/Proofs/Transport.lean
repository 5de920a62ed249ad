/-
  ActionBytecode — the indices of a renamed unit.

  When namespaces, methods and classes are renamed one-to-one, everything is met in the same order,
  so it gets the same indices.  One thing could interfere: the members of a namespace set are met in
  their own order, and a renaming can change that order.  It does not matter as long as the
  renaming keeps the order of those namespaces that get their indices in that order
  (`KeepsOrder`); a renaming by index is like that.

  `CodeUnit.index_mirrors`: a unit that refers to the renamed things in the same order gives each of
  them the index of the original.
-/
import ActionBytecode.Proofs.Renaming
import ActionBytecode.Proofs.Revisit

namespace ActionBytecode

/-! ## One-to-one renamings -/

/-- Different things get different names, and a namespace keeps its kind and its name. -/
structure Renaming.Faithful (r : Renaming) : Prop where
  kind : ∀ ns, (r.namespaces ns).kind = ns.kind
  name : ∀ ns, (r.namespaces ns).name = ns.name
  namespaces : Function.Injective r.namespaces
  methods : Function.Injective r.methods
  classes : Function.Injective r.classes

theorem Renaming.faithful_refl : Renaming.refl.Faithful where
  kind _ := rfl
  name _ := rfl
  namespaces := Function.injective_id
  methods := Function.injective_id
  classes := Function.injective_id

theorem Renaming.Faithful.global {r : Renaming} (h : r.Faithful) :
    r.namespaces .global = .global := by
  refine Namespace.ext (h.kind _) (h.name _) ?_
  have hk : (r.namespaces .global).kind ≠ .privateMembers := by
    rw [h.kind]
    decide
  exact ((r.namespaces .global).privateId_eq_zero hk).trans rfl

section
variable {f : Namespace → Namespace}

theorem NamespaceSet.mem_rename {set : NamespaceSet} {x : Namespace} :
    x ∈ (set.rename f).members ↔ ∃ ns ∈ set.members, f ns = x := by
  rw [← mem_def, rename, mem_ofList, List.mem_map]

theorem NamespaceSet.nodup (set : NamespaceSet) : set.members.Nodup := by
  refine set.ascending.imp fun {x y} h he => ?_
  rw [he, Namespace.compare_eq_iff_eq.2 rfl] at h
  cases h

theorem NamespaceSet.rename_injective (hf : Function.Injective f) :
    Function.Injective (NamespaceSet.rename f) := by
  have key {s t : NamespaceSet} (h : s.rename f = t.rename f) {x : Namespace} (hx : x ∈ s) :
      x ∈ t := by
    have hm : f x ∈ (t.rename f).members := h ▸ mem_rename.2 ⟨x, hx, rfl⟩
    obtain ⟨y, hy, he⟩ := mem_rename.1 hm
    exact hf he ▸ hy
  intro s t h
  exact ext_iff_mem.2 fun x => ⟨key h, key h.symm⟩

mutual
theorem Multiname.eq_of_rename (hf : Function.Injective f) : ∀ {x y : Multiname},
    x.rename f = y.rename f → x = y
  | .qualified .., .qualified .., h => by
    simp only [rename, qualified.injEq] at h ⊢
    exact ⟨h.1, hf h.2.1, h.2.2⟩
  | .runtimeQualified .., .runtimeQualified .., h => h
  | .runtime _, .runtime _, h => h
  | .ambiguous .., .ambiguous .., h => by
    simp only [rename, ambiguous.injEq] at h ⊢
    exact ⟨h.1, h.2.1, NamespaceSet.rename_injective hf h.2.2⟩
  | .late .., .late .., h => by
    simp only [rename, late.injEq] at h ⊢
    exact ⟨h.1, NamespaceSet.rename_injective hf h.2⟩
  | .applied .., .applied .., h => by
    simp only [rename, applied.injEq] at h ⊢
    exact ⟨eq_of_rename hf h.1, eq_of_renameAll hf h.2⟩

theorem Multiname.eq_of_renameAll (hf : Function.Injective f) : ∀ {xs ys : List Multiname},
    renameAll f xs = renameAll f ys → xs = ys
  | [], [], _ => rfl
  | x :: xs, y :: ys, h => by
    simp only [renameAll, List.cons.injEq] at h ⊢
    exact ⟨eq_of_rename hf h.1, eq_of_renameAll hf h.2⟩
end

end

/-! ## Numberings -/

/-- `b` numbers the images of what `a` numbers. -/
def Numbering.Mirrors {α β : Type} (f : α → β) (a : Numbering α) (b : Numbering β) : Prop :=
  b.values = a.values.map f

namespace Numbering

section
variable {α β : Type} {f : α → β} {a : Numbering α} {b : Numbering β}

theorem Mirrors.mem (h : a.Mirrors f b) (hf : Function.Injective f) {x : α} :
    f x ∈ b ↔ x ∈ a := by
  rw [mem_def, h, List.mem_map_of_injective hf, mem_def]

theorem Mirrors.id_eq_ok (h : a.Mirrors f b) {text : α → String} {text' : β → String} {x : α}
    {i : Nat} (hi : a.id text x = .ok i) : b.id text' (f x) = .ok i := by
  rw [Numbering.id_eq_ok] at hi ⊢
  rw [h, List.getElem?_map, hi]
  rfl

variable [DecidableEq α] [DecidableEq β]

theorem Mirrors.register (h : a.Mirrors f b) (hf : Function.Injective f) (x : α) :
    (a.register x).Mirrors f (b.register (f x)) := by
  have hm : f x ∈ b.values ↔ x ∈ a.values := h.mem hf
  rw [Mirrors, values_register, values_register]
  by_cases hx : x ∈ a.values
  · rw [if_pos hx, if_pos (hm.2 hx), h]
  · rw [if_neg hx, if_neg fun hx' => hx (hm.1 hx'), h, List.map_append]
    rfl

theorem mirrors_ofList (hf : Function.Injective f) (xs : List α) :
    (ofList xs).Mirrors f (ofList (xs.map f)) := by
  induction xs using List.reverseRecOn with
  | nil => rfl
  | append_singleton xs x ih =>
    rw [List.map_append, List.map_singleton, ofList_append_singleton, ofList_append_singleton]
    exact ih.register hf x

end

end Numbering

/-! ## Indices -/

/-- `b` gives to the renamed things the indices that `a` gives. -/
structure Indexing.Mirrors (r : Renaming) (a b : Indexing) : Prop where
  ints : b.ints = a.ints
  uints : b.uints = a.uints
  doubles : b.doubles = a.doubles
  strings : b.strings = a.strings
  namespaces : a.namespaces.Mirrors r.namespaces b.namespaces
  namespaceSets : a.namespaceSets.Mirrors (·.rename r.namespaces) b.namespaceSets
  multinames : a.multinames.Mirrors (·.rename r.namespaces) b.multinames
  methods : a.methods.Mirrors r.methods b.methods
  classes : a.classes.Mirrors r.classes b.classes

/-- Of namespaces in this order, those that ascend also do so when they are renamed. -/
def KeepsOrder (f : Namespace → Namespace) (namespaces : List Namespace) : Prop :=
  namespaces.Pairwise fun x y => compare x y = .lt → compare (f x) (f y) = .lt

theorem keepsOrder_id (namespaces : List Namespace) : KeepsOrder id namespaces :=
  List.pairwise_of_forall fun _ _ h => h

namespace Indexing

theorem spelled?_spelled? (name : Option String) : spelled? (spelled? name) = spelled? name := by
  simp [spelled?, Option.filter_filter]

section
variable {r : Renaming} (hr : r.Faithful) {a b : Indexing}

theorem Mirrors.addInt (h : a.Mirrors r b) (value : Int32) :
    (a.addInt value).Mirrors r (b.addInt value) :=
  { h with ints := congrArg (·.register value) h.ints }

theorem Mirrors.addUint (h : a.Mirrors r b) (value : UInt32) :
    (a.addUint value).Mirrors r (b.addUint value) :=
  { h with uints := congrArg (·.register value) h.uints }

theorem Mirrors.addDouble (h : a.Mirrors r b) (value : Double) :
    (a.addDouble value).Mirrors r (b.addDouble value) :=
  { h with doubles := congrArg (·.register value) h.doubles }

theorem Mirrors.addLiteral (h : a.Mirrors r b) (value : String) :
    (a.addLiteral value).Mirrors r (b.addLiteral value) :=
  { h with strings := congrArg (·.register value) h.strings }

theorem addName_spelled? (a : Indexing) (name : Option String) :
    a.addName (spelled? name) = a.addName name := by
  rw [addName, addName, spelled?_spelled?]

theorem Mirrors.addName (h : a.Mirrors r b) (name : Option String) :
    (a.addName name).Mirrors r (b.addName name) := by
  rw [Indexing.addName, Indexing.addName]
  cases spelled? name with
  | none => exact h
  | some s => exact h.addLiteral s

include hr

theorem Mirrors.addNamespace (h : a.Mirrors r b) (ns : Namespace) :
    (a.addNamespace ns).Mirrors r (b.addNamespace (r.namespaces ns)) := by
  by_cases hm : ns ∈ a.namespaces
  · rw [addNamespace_of_mem hm, addNamespace_of_mem ((h.namespaces.mem hr.namespaces).2 hm)]
    exact h
  · have hm' : r.namespaces ns ∉ b.namespaces := fun hb =>
      hm ((h.namespaces.mem hr.namespaces).1 hb)
    rw [Indexing.addNamespace, if_neg hm, Indexing.addNamespace, if_neg hm', hr.name]
    have hn := h.addName (some ns.name)
    exact { hn with namespaces := hn.namespaces.register hr.namespaces ns }

theorem Mirrors.addNamespaces (members : List Namespace) : ∀ {a b : Indexing}, a.Mirrors r b →
    (members.foldl Indexing.addNamespace a).Mirrors r
      ((members.map r.namespaces).foldl Indexing.addNamespace b) := by
  induction members with
  | nil => exact fun h => h
  | cons ns members ih => exact fun h => ih (h.addNamespace hr ns)

end

/-! ## Sets -/

/-- Members that have an index are passed over. -/
theorem foldl_addNamespace_filter (known : List Namespace) (members : List Namespace) :
    ∀ a : Indexing, (∀ ns ∈ known, ns ∈ a.namespaces) →
      members.foldl addNamespace a =
        (members.filter (· ∉ known)).foldl addNamespace a := by
  induction members with
  | nil => exact fun _ _ => rfl
  | cons ns members ih =>
    intro a ha
    by_cases hns : ns ∈ known
    · rw [List.foldl_cons, addNamespace_of_mem (ha ns hns), List.filter_cons_of_neg (by simpa)]
      exact ih a ha
    · rw [List.foldl_cons, List.filter_cons_of_pos (by simpa), List.foldl_cons]
      exact ih _ fun other ho => (enlarges_addNamespace a ns).namespaces.mem (ha other ho)

theorem namespaces_addNamespace {a : Indexing} {ns : Namespace} (h : ns ∉ a.namespaces) :
    (a.addNamespace ns).namespaces.values = a.namespaces.values ++ [ns] := by
  have hname : (a.addName (some ns.name)).namespaces = a.namespaces := by
    rw [addName]
    cases spelled? (some ns.name) <;> rfl
  have hn : ns ∉ a.namespaces.values := h
  rw [addNamespace, if_neg h]
  show ((a.addName (some ns.name)).namespaces.register ns).values = _
  rw [hname, Numbering.values_register, if_neg hn]

/-- Distinct members without an index get the next ones, in their order. -/
theorem namespaces_addNamespaces (members : List Namespace) : ∀ a : Indexing, members.Nodup →
    (∀ ns ∈ members, ns ∉ a.namespaces) →
    (members.foldl addNamespace a).namespaces.values = a.namespaces.values ++ members := by
  induction members with
  | nil => exact fun a _ _ => (List.append_nil _).symm
  | cons ns members ih =>
    intro a hd hn
    obtain ⟨hns, hd⟩ := List.nodup_cons.1 hd
    obtain ⟨hn, hmembers⟩ := List.forall_mem_cons.1 hn
    have hvalues := namespaces_addNamespace hn
    rw [List.foldl_cons, ih _ hd, hvalues, List.append_assoc]
    · rfl
    · intro other ho hm
      rw [Numbering.mem_def, hvalues, List.mem_append, List.mem_singleton] at hm
      rcases hm with hm | rfl
      · exact hmembers other ho hm
      · exact hns ho

section
variable {r : Renaming} (hr : r.Faithful) {a b : Indexing} {all : List Namespace}
  (hk : KeepsOrder r.namespaces all)
include hr hk

/-- The members without an index stand in the same order when they are renamed. -/
theorem Mirrors.filter_members (h : a.Mirrors r b) {set : NamespaceSet}
    (hx : a.namespaces.values ++ set.members.filter (· ∉ a.namespaces.values) <+: all) :
    (set.rename r.namespaces).members.filter (· ∉ b.namespaces.values) =
      (set.members.filter (· ∉ a.namespaces.values)).map r.namespaces := by
  have hsub : (set.members.filter (· ∉ a.namespaces.values)).Sublist all :=
    (List.sublist_append_right ..).trans hx.sublist
  refine NamespaceSet.eq_of_mem_iff ((set.rename r.namespaces).ascending.filter _) ?_ fun x => ?_
  · rw [List.pairwise_map]
    exact (List.Pairwise.and (set.ascending.filter _) (hk.sublist hsub)).imp fun h => h.2 h.1
  · simp only [List.mem_filter, List.mem_map, decide_eq_true_eq, NamespaceSet.mem_rename]
    constructor
    · rintro ⟨⟨ns, hns, rfl⟩, hb⟩
      exact ⟨ns, ⟨hns, fun ha => hb ((h.namespaces.mem hr.namespaces).2 ha)⟩, rfl⟩
    · rintro ⟨ns, ⟨hns, ha⟩, rfl⟩
      exact ⟨⟨ns, hns, rfl⟩, fun hb => ha ((h.namespaces.mem hr.namespaces).1 hb)⟩

theorem Mirrors.addMembers (h : a.Mirrors r b) {set : NamespaceSet}
    (hx : (set.members.foldl Indexing.addNamespace a).namespaces.values <+: all) :
    (set.members.foldl Indexing.addNamespace a).Mirrors r
      ((set.rename r.namespaces).members.foldl Indexing.addNamespace b) := by
  rw [foldl_addNamespace_filter _ _ a fun _ hm => hm] at hx ⊢
  have hvalues := namespaces_addNamespaces (set.members.filter (· ∉ a.namespaces.values)) a
    (set.nodup.filter _) fun _ hm => by simpa [Numbering.mem_def] using (List.mem_filter.1 hm).2
  rw [hvalues] at hx
  rw [foldl_addNamespace_filter _ _ b fun _ hm => hm, h.filter_members hr hk hx]
  exact h.addNamespaces hr _

theorem Mirrors.addNamespaceSet (h : a.Mirrors r b) (set : NamespaceSet)
    (hx : (a.addNamespaceSet set).namespaces.values <+: all) :
    (a.addNamespaceSet set).Mirrors r (b.addNamespaceSet (set.rename r.namespaces)) := by
  have hmem := h.namespaceSets.mem (NamespaceSet.rename_injective hr.namespaces) (x := set)
  by_cases hm : set ∈ a.namespaceSets
  · rw [Indexing.addNamespaceSet, if_pos hm, Indexing.addNamespaceSet, if_pos (hmem.2 hm)]
    exact h
  · rw [Indexing.addNamespaceSet, if_neg hm] at hx ⊢
    rw [Indexing.addNamespaceSet, if_neg fun hb => hm (hmem.1 hb)]
    have hn := h.addMembers hr hk hx
    exact { hn with
      namespaceSets := hn.namespaceSets.register (NamespaceSet.rename_injective hr.namespaces) set }

end

/-! ## Multinames -/

section
variable {r : Renaming} (hr : r.Faithful) {all : List Namespace}

theorem mirrors_rename (hr : r.Faithful) {a b : Indexing} (h : a.Mirrors r b) {name : Multiname} :
    name.rename r.namespaces ∈ b.multinames ↔ name ∈ a.multinames :=
  h.multinames.mem fun _ _ he => Multiname.eq_of_rename hr.namespaces he

theorem Mirrors.addMultinameEntry (hr : r.Faithful) {a b : Indexing} (h : a.Mirrors r b)
    (name : Multiname) : (a.addMultinameEntry name).Mirrors r
      (b.addMultinameEntry (name.rename r.namespaces)) :=
  { h with
    multinames := h.multinames.register
      (fun _ _ he => Multiname.eq_of_rename hr.namespaces he) name }

mutual
theorem Mirrors.addMultiname (hr : r.Faithful) (hk : KeepsOrder r.namespaces all) :
    ∀ (name : Multiname) {a b : Indexing}, a.Mirrors r b →
      (a.addMultiname name).namespaces.values <+: all →
      (a.addMultiname name).Mirrors r (b.addMultiname (name.rename r.namespaces)) := by
  intro name a b h hx
  by_cases hm : name ∈ a.multinames
  · rw [addMultiname_of_mem hm, addMultiname_of_mem ((mirrors_rename hr h).2 hm)]
    exact h
  have hm' : name.rename r.namespaces ∉ b.multinames := fun hb => hm ((mirrors_rename hr h).1 hb)
  cases name with
  | qualified attr ns name =>
    rw [Multiname.rename] at hm' ⊢
    rw [Indexing.addMultiname, if_neg hm, Indexing.addMultiname, if_neg hm']
    exact ((h.addName name).addNamespace hr ns).addMultinameEntry hr _
  | runtimeQualified attr name =>
    rw [Multiname.rename] at hm' ⊢
    rw [Indexing.addMultiname, if_neg hm, Indexing.addMultiname, if_neg hm']
    exact (h.addName name).addMultinameEntry hr _
  | runtime attr =>
    rw [Indexing.addMultiname, Multiname.rename, Indexing.addMultiname]
    exact h.addMultinameEntry hr _
  | ambiguous attr name set =>
    rw [Indexing.addMultiname, if_neg hm] at hx ⊢
    rw [Multiname.rename] at hm' ⊢
    rw [Indexing.addMultiname, if_neg hm']
    exact ((h.addName name).addNamespaceSet hr hk set hx).addMultinameEntry hr _
  | late attr set =>
    rw [Indexing.addMultiname, if_neg hm] at hx ⊢
    rw [Multiname.rename] at hm' ⊢
    rw [Indexing.addMultiname, if_neg hm']
    exact (h.addNamespaceSet hr hk set hx).addMultinameEntry hr _
  | applied base params =>
    rw [Indexing.addMultiname, if_neg hm] at hx ⊢
    rw [Multiname.rename] at hm' ⊢
    rw [Indexing.addMultiname, if_neg hm']
    have hbase := Mirrors.addMultiname hr hk base h
      (List.IsPrefix.trans (enlarges_addMultinames params _).1.namespaces hx)
    exact (Mirrors.addMultinames hr hk params hbase hx).addMultinameEntry hr _

theorem Mirrors.addMultinames (hr : r.Faithful) (hk : KeepsOrder r.namespaces all) :
    ∀ (names : List Multiname) {a b : Indexing}, a.Mirrors r b →
      (a.addMultinames names).namespaces.values <+: all →
      (a.addMultinames names).Mirrors r
        (b.addMultinames (Multiname.renameAll r.namespaces names))
  | [], _, _, h, _ => by
    rw [Indexing.addMultinames, Multiname.renameAll, Indexing.addMultinames]
    exact h
  | name :: names, _, _, h, hx => by
    rw [Indexing.addMultinames] at hx ⊢
    rw [Multiname.renameAll, Indexing.addMultinames]
    have hname := Mirrors.addMultiname hr hk name h
      (List.IsPrefix.trans (enlarges_addMultinames names _).1.namespaces hx)
    exact Mirrors.addMultinames hr hk names hname hx
end

theorem Mirrors.addValue (hr : r.Faithful) {a b : Indexing} (h : a.Mirrors r b)
    (value : DefaultValue) :
    (a.addValue value).Mirrors r (b.addValue (value.rename r.namespaces)) := by
  cases value with
  | int value => exact h.addInt value
  | uint value => exact h.addUint value
  | double value => exact h.addDouble value
  | text value => exact h.addLiteral value
  | nspace ns => exact h.addNamespace hr ns
  | truth | null | undefined => exact h

end

end Indexing

/-! ## References -/

/-- The reference to what something becomes.  Names that no entry stands for are all the same. -/
def Use.rename (r : Renaming) : Use → Use
  | value constant => .value (constant.rename r.namespaces)
  | name spelling => .name (spelled? spelling)
  | multiname entry => .multiname (entry.rename r.namespaces)
  | method handle => .method (r.methods handle)
  | instructionClass handle => .instructionClass (r.classes handle)
  | traitClass handle => .traitClass (r.classes handle)

namespace CodeUnit

variable {unit other : CodeUnit} {r : Renaming} {debug debug' : Bool} {a : Indexing}

theorem visit_rename_refl (n : Nat) (a : Indexing) (use : Use) :
    unit.visit debug n a (use.rename .refl) = unit.visit debug n a use := by
  cases use with
  | value value => cases value <;> rfl
  | name name => rw [Use.rename, visit_name, visit_name, Indexing.addName_spelled?]
  | multiname name =>
    show unit.visit debug n a (.multiname (name.rename id)) = _
    rw [Multiname.rename_id]
  | _ => rfl

theorem foldlM_rename_refl (n : Nat) (a : Indexing) (uses : List Use) :
    (uses.map (Use.rename .refl)).foldlM (unit.visit debug n) a =
      uses.foldlM (unit.visit debug n) a := by
  rw [List.foldlM_map]
  simp only [visit_rename_refl]

/-- The methods with an index refer to the same things in both units, up to the renaming. -/
def UsesMirror (unit other : CodeUnit) (r : Renaming) (debug debug' : Bool) (a : Indexing) : Prop :=
  ∀ handle ∈ a.methods, ∀ method uses, unit.method? handle = some method →
    method.uses debug = .ok uses →
    ∃ method' uses', other.method? (r.methods handle) = some method' ∧
      method'.uses debug' = .ok uses' ∧ uses'.map (Use.rename .refl) = uses.map (Use.rename r)

section
variable {last : Indexing}

theorem foldlM_mirrors {visit visit' : Indexing → Use → Except Fault Indexing}
    (hx : ∀ a use b, visit a use = .ok b → a.Extends b)
    (hv : ∀ a use a' b, visit a use = .ok a' → a'.Extends last → a.Mirrors r b →
      ∃ b', visit' b (use.rename r) = .ok b' ∧ a'.Mirrors r b') (uses : List Use) :
    ∀ {a a' b : Indexing}, uses.foldlM visit a = .ok a' → a'.Extends last → a.Mirrors r b →
      ∃ b', (uses.map (Use.rename r)).foldlM visit' b = .ok b' ∧ a'.Mirrors r b' := by
  have grows (uses : List Use) : ∀ {a b}, uses.foldlM visit a = .ok b → a.Extends b := by
    induction uses with
    | nil =>
      intro a b h
      cases h
      exact .refl a
    | cons use uses ih =>
      intro a c h
      rw [List.foldlM_cons, bind_eq_ok] at h
      obtain ⟨b, hb, hc⟩ := h
      exact (hx a use b hb).trans (ih hc)
  induction uses with
  | nil =>
    intro a a' b h _ hm
    cases h
    exact ⟨b, rfl, hm⟩
  | cons use uses ih =>
    intro a a' b h hl hm
    rw [List.foldlM_cons, bind_eq_ok] at h
    obtain ⟨c, hc, ha⟩ := h
    obtain ⟨d, hd, hcd⟩ := hv a use c b hc ((grows uses ha).trans hl) hm
    obtain ⟨b', hb', hm'⟩ := ih ha hl hcd
    exact ⟨b', by rw [List.map_cons, List.foldlM_cons, hd]; exact hb', hm'⟩

variable (hr : r.Faithful) (hk : KeepsOrder r.namespaces last.namespaces.values)
  (hu : unit.UsesMirror other r debug debug' last)
include hr hk hu

/-- **A visit of the renamed reference gives the renamed things the same indices.** -/
theorem visit_mirrors : ∀ (n : Nat) (a : Indexing) (use : Use) (a' b : Indexing),
    unit.visit debug n a use = .ok a' → a'.Extends last → a.Mirrors r b →
    ∃ b', other.visit debug' n b (use.rename r) = .ok b' ∧ a'.Mirrors r b' := by
  intro n
  induction n using Nat.strong_induction_on with
  | _ n ih =>
    intro a use a' b h hl hm
    cases use with
    | value value =>
      rw [visit_value] at h
      cases h
      exact ⟨_, visit_value _, hm.addValue hr value⟩
    | name name =>
      rw [visit_name] at h
      cases h
      refine ⟨_, visit_name _, ?_⟩
      rw [Indexing.addName_spelled?]
      exact hm.addName name
    | multiname name =>
      rw [visit_multiname] at h
      cases h
      exact ⟨_, visit_multiname _, hm.addMultiname hr hk name hl.namespaces⟩
    | instructionClass handle =>
      obtain ⟨hc, rfl⟩ := (visit_class_eq_ok (.inl rfl)).1 h
      exact ⟨b, (visit_class_eq_ok (.inl rfl)).2 ⟨(hm.classes.mem hr.classes).2 hc, rfl⟩, hm⟩
    | traitClass handle =>
      obtain ⟨hc, rfl⟩ := (visit_class_eq_ok (.inr rfl)).1 h
      exact ⟨b, (visit_class_eq_ok (.inr rfl)).2 ⟨(hm.classes.mem hr.classes).2 hc, rfl⟩, hm⟩
    | method handle =>
      by_cases hn : handle ∈ a.methods
      · rw [visit_of_mem hn] at h
        cases h
        exact ⟨b, visit_of_mem ((hm.methods.mem hr.methods).2 hn), hm⟩
      -- new on one side is new on the other, so both get the next index and then visit their uses
      · have hn' : r.methods handle ∉ b.methods := fun hb => hn ((hm.methods.mem hr.methods).1 hb)
        have hmem : handle ∈ last.methods := hl.methods.mem (visit_spec n a _ a' h).2
        obtain ⟨m, method, uses, rfl, hmethod, huses, hf⟩ := (visit_method_eq_ok hn).1 h
        obtain ⟨method', uses', hmethod', huses', he⟩ := hu handle hmem method uses hmethod huses
        have hregister : Indexing.Mirrors r { a with methods := a.methods.register handle }
            { b with methods := b.methods.register (r.methods handle) } :=
          { hm with methods := hm.methods.register hr.methods handle }
        obtain ⟨b', hb', hm'⟩ := foldlM_mirrors
          (fun a use b h => (visit_spec m a use b h).1.toExtends) (ih m (Nat.lt_succ_self m)) uses
          hf hl hregister
        refine ⟨b', (visit_method_eq_ok hn').2 ⟨m, method', uses', rfl, hmethod', huses', ?_⟩, hm'⟩
        rw [← foldlM_rename_refl, he]
        exact hb'

end

theorem mirrors_initial (hr : r.Faithful) (order : List ClassHandle) :
    Indexing.Mirrors r { classes := .ofList order }
      { classes := .ofList (order.map r.classes) } where
  ints := rfl
  uints := rfl
  doubles := rfl
  strings := rfl
  namespaces := congrArg (fun ns => [ns]) hr.global.symm
  namespaceSets := rfl
  multinames := rfl
  methods := rfl
  classes := Numbering.mirrors_ofList hr.classes order

/-- **A unit that refers to the renamed things in the order of their indices gives them the same
    indices.** -/
theorem index_mirrors (hr : r.Faithful) (hk : KeepsOrder r.namespaces a.namespaces.values)
    {order : List ClassHandle} (h : unit.index debug order = .ok a)
    (hsize : other.methods.size = unit.methods.size)
    (hu : unit.UsesMirror other r debug debug' a)
    (huses : (other.uses (a.classes.values.map r.classes)).map (Use.rename .refl) =
      ({ unit with methodOrder := a.methods.values }.uses a.classes.values).map (Use.rename r)) :
    ∃ b, other.index debug' (a.classes.values.map r.classes) = .ok b ∧ a.Mirrors r b := by
  -- the other unit lists its methods by index, so the first one is taken in that order too
  have h' := index_reordered h
  rw [index, visit_with_methodOrder] at h'
  obtain ⟨b, hb, hm⟩ := foldlM_mirrors
    (fun a use b h => (visit_spec _ a use b h).1.toExtends) (visit_mirrors hr hk hu _) _ h'
    (.refl a) (mirrors_initial hr a.classes.values)
  refine ⟨b, ?_, hm⟩
  rw [index, ← foldlM_rename_refl, huses, hsize]
  exact hb

end CodeUnit

end ActionBytecode
