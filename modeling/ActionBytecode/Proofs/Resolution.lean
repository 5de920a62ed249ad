/-
  ActionBytecode — multinames that refer to one another.

  An entry of the table of multinames is a plain multiname, or a type application that refers to
  its parts by index (`MultinameEntry.Refers`).  The parts can stand before it or after it, more
  applications can share one, and nothing keeps the references from leading in a circle.

  `MultinameEntry.Denotes` says which multiname an index stands for, without regard to the order
  in which the table is gone through.

  * `resolve_denotes`, `Denotes.unique`: what is resolved is what the index stands for, and there
    is only one such multiname;
  * `Denotes.not_circular`: an index from which the references lead back to it stands for none;
  * `blames_of_resolve`: what cannot be resolved is the fault of a type application;
  * `resolve_next`: an entry whose parts are remembered is resolved, however deeply they are nested.

  `Reader.multinames_exact` puts these together.
-/
import ActionBytecode.Layout.Pool
import ActionBytecode.Proofs.Outcome
import Mathlib.Logic.Relation

namespace ActionBytecode

/-! ## What an index stands for -/

/-- The multiname that an index stands for. -/
inductive MultinameEntry.Denotes (entries : Array MultinameEntry) : Nat → Multiname → Prop
  | plain {i : Nat} {name : Multiname} (h : entries[i]? = some (.plain name)) :
    Denotes entries i name
  | application {i offset base : Nat} {params : List Nat} {b : Multiname} {ps : List Multiname}
    (h : entries[i]? = some (.application offset base params)) (hb : Denotes entries base b)
    (hl : params.length = ps.length)
    (hp : ∀ (j : Nat) p name, params[j]? = some p → ps[j]? = some name → Denotes entries p name) :
    Denotes entries i (.applied b ps)

namespace MultinameEntry

variable {entries : Array MultinameEntry}

/-- **An index stands for one multiname.** -/
theorem Denotes.unique {i : Nat} {x : Multiname} (h : Denotes entries i x) :
    ∀ {y}, Denotes entries i y → x = y := by
  induction h with
  | plain h =>
    intro y h'
    cases h' with
    | plain h' =>
      cases h.symm.trans h'
      rfl
    | application h' => cases h.symm.trans h'
  | @application i offset base params b ps h _ hl hp ihb ihp =>
    intro y h'
    cases h' with
    | plain h' => cases h.symm.trans h'
    | @application _ _ _ _ b' ps' h' hb' hl' hp' =>
      cases h.symm.trans h'
      have hps : ps = ps' := by
        refine List.ext_getElem (hl.symm.trans hl') fun j hj hj' => ?_
        have hparam := List.getElem?_eq_getElem (hl ▸ hj)
        exact ihp j _ _ hparam (List.getElem?_eq_getElem hj)
          (hp' j _ _ hparam (List.getElem?_eq_getElem hj'))
      rw [ihb hb', hps]

theorem Denotes.lt_size {i : Nat} {name : Multiname} (h : Denotes entries i name) :
    i < entries.size := by
  cases h with
  | plain h => exact (Array.getElem?_eq_some_iff.1 h).1
  | application h => exact (Array.getElem?_eq_some_iff.1 h).1

/-- The names are those of all indices, in order, so what an index stands for is found there. -/
theorem Denotes.getElem? {names : List Multiname}
    (hn : List.Forall₂ (Denotes entries) (List.range entries.size) names) {i : Nat}
    {name : Multiname} (h : Denotes entries i name) : names[i]? = some name := by
  obtain ⟨other, ho, hd⟩ := exists_getElem? hn (List.getElem?_range h.lt_size)
  rw [h.unique hd]
  exact ho

theorem exists_denotes {names : List Multiname}
    (hn : List.Forall₂ (Denotes entries) (List.range entries.size) names) {i : Nat}
    (hi : i < entries.size) : ∃ name, Denotes entries i name := by
  obtain ⟨name, -, h⟩ := exists_getElem? hn (List.getElem?_range hi)
  exact ⟨name, h⟩

/-- The entry at `i` is a type application, and one of its parts is given as `j`. -/
def Refers (entries : Array MultinameEntry) (i j : Nat) : Prop :=
  ∃ offset base params, entries[i]? = some (.application offset base params) ∧ j ∈ base :: params

/-- The parts of what an index stands for are what their indices stand for. -/
theorem Denotes.of_refers {i j : Nat} {name : Multiname} (h : Denotes entries i name)
    (hr : Refers entries i j) : ∃ part, Denotes entries j part := by
  obtain ⟨offset, base, params, he, hj⟩ := hr
  cases h with
  | plain h => cases h.symm.trans he
  | @application _ _ _ _ b ps h hb hl hp =>
    cases h.symm.trans he
    rcases List.mem_cons.1 hj with rfl | hj
    · exact ⟨b, hb⟩
    · obtain ⟨k, hk⟩ := List.getElem?_of_mem hj
      have hlt : k < ps.length := hl ▸ (List.getElem?_eq_some_iff.1 hk).1
      exact ⟨ps[k], hp k j _ hk (List.getElem?_eq_getElem hlt)⟩

/-- **References that lead in a circle stand for nothing.** -/
theorem Denotes.not_circular {i : Nat} {name : Multiname} (h : Denotes entries i name) :
    ¬ Relation.TransGen (Refers entries) i i := by
  induction h with
  | plain h =>
    intro hc
    obtain ⟨j, ⟨offset, base, params, he, -⟩, -⟩ := Relation.TransGen.head'_iff.1 hc
    cases h.symm.trans he
  | @application i offset base params b ps h hb hl hp ihb ihp =>
    intro hc
    obtain ⟨j, hij, hji⟩ := Relation.TransGen.head'_iff.1 hc
    -- the circle also goes through the part
    have hcj : Relation.TransGen (Refers entries) j j := .tail' hji hij
    obtain ⟨_, _, _, he, hj⟩ := hij
    cases h.symm.trans he
    rcases List.mem_cons.1 hj with rfl | hj
    · exact ihb hcj
    · obtain ⟨k, hk⟩ := List.getElem?_of_mem hj
      have hlt : k < ps.length := hl ▸ (List.getElem?_eq_some_iff.1 hk).1
      exact ihp k j _ hk (List.getElem?_eq_getElem hlt) hcj

/-- In a table whose indices all stand for multinames, none leads out of the table or back to
    itself. -/
theorem Refers.lt_and_not_circular {names : List Multiname}
    (hn : List.Forall₂ (Denotes entries) (List.range entries.size) names) {i j : Nat}
    (h : Refers entries i j) :
    j < entries.size ∧ ¬ Relation.TransGen (Refers entries) i i := by
  obtain ⟨offset, base, params, hi, -⟩ := id h
  obtain ⟨name, hname⟩ := exists_denotes hn (Array.getElem?_eq_some_iff.1 hi).1
  obtain ⟨part, hpart⟩ := hname.of_refers h
  exact ⟨hpart.lt_size, hname.not_circular⟩

/-- The entry stands for the multiname, in a table of multinames: a plain one for itself, an
    application for that of the multinames at the given indices. -/
inductive ResolvesTo (names : List Multiname) : MultinameEntry → Multiname → Prop
  | plain (name : Multiname) : ResolvesTo names (.plain name) name
  | application {base : Nat} {params : List Nat} {b : Multiname} {ps : List Multiname}
    (offset : Nat) (hb : names[base]? = some b)
    (hp : List.Forall₂ (fun i p => names[i]? = some p) params ps) :
    ResolvesTo names (.application offset base params) (.applied b ps)

theorem Denotes.resolvesTo {names : List Multiname}
    (hn : List.Forall₂ (Denotes entries) (List.range entries.size) names) {i : Nat}
    {entry : MultinameEntry} {name : Multiname} (he : entries[i]? = some entry)
    (h : Denotes entries i name) : ResolvesTo names entry name := by
  cases h with
  | plain h =>
    cases he.symm.trans h
    exact .plain name
  | application h hb hl hp =>
    cases he.symm.trans h
    refine .application _ (hb.getElem? hn) (List.forall₂_iff_get.2 ⟨hl, fun j hj hj' => ?_⟩)
    exact (hp j _ _ (List.getElem?_eq_getElem hj) (List.getElem?_eq_getElem hj')).getElem? hn

/-- **What the indices stand for is made up as the entries say.** -/
theorem forall₂_resolvesTo {names : List Multiname}
    (hn : List.Forall₂ (Denotes entries) (List.range entries.size) names) :
    List.Forall₂ (ResolvesTo names) entries.toList names := by
  have hlength := hn.length_eq
  rw [List.length_range, ← Array.length_toList] at hlength
  refine List.forall₂_iff_get.2 ⟨hlength, fun i hi hi' => ?_⟩
  obtain ⟨name, hname⟩ := exists_denotes hn (Array.length_toList ▸ hi)
  have hat := hname.getElem? hn
  rw [List.getElem?_eq_getElem hi', Option.some.injEq] at hat
  have hentry : entries[i]? = some (entries.toList.get ⟨i, hi⟩) := by
    rw [← Array.getElem?_toList]
    exact List.getElem?_eq_getElem hi
  subst hat
  exact hname.resolvesTo hn hentry

end MultinameEntry

/-! ## What is resolved -/

namespace Resolution

variable {entries : Array MultinameEntry}

/-- What is remembered is what the indices stand for. -/
def Faithful (entries : Array MultinameEntry) (state : Array (Option Multiname)) : Prop :=
  ∀ i name, state[i]? = some (some name) → MultinameEntry.Denotes entries i name

theorem Faithful.remember {state later : Array (Option Multiname)} {i : Nat} {name x : Multiname}
    (hs : Faithful entries state) (hn : MultinameEntry.Denotes entries i name)
    (h : Resolution.remember i name state = .ok x later) :
    Faithful entries later ∧ MultinameEntry.Denotes entries i x := by
  cases h
  refine ⟨fun j other hj => ?_, hn⟩
  rw [Array.getElem?_setIfInBounds] at hj
  split at hj
  · next he =>
    split at hj
    · cases hj
      exact he ▸ hn
    · cases hj
  · exact hs j other hj

/-- What it takes to resolve an index. -/
theorem resolve_cases {depth source i : Nat} {state later : Array (Option Multiname)}
    {name : Multiname} (h : resolve entries depth source i state = .ok name later) :
    (state[i]? = some (some name) ∧ state = later) ∨
    (∃ x, entries[i]? = some (.plain x) ∧ Resolution.remember i x state = .ok name later) ∨
    ∃ offset base params d b middle ps last,
      entries[i]? = some (.application offset base params) ∧ depth = d + 1 ∧
      resolve entries d offset base state = .ok b middle ∧
      params.mapM (resolve entries d offset) middle = .ok ps last ∧
      Resolution.remember i (.applied b ps) last = .ok name later := by
  rw [resolve.eq_def, run_get_bind] at h
  cases hx : state[i]?.join with
  | some x =>
    simp only [hx] at h
    cases h
    exact .inl ⟨Option.join_eq_some_iff.1 hx, rfl⟩
  | none =>
    cases he : entries[i]? with
    | none =>
      simp only [hx, he] at h
      cases h
    | some entry =>
      cases entry with
      | plain x =>
        simp only [hx, he] at h
        exact .inr (.inl ⟨x, rfl, h⟩)
      | application offset base params =>
        simp only [hx, he] at h
        cases depth with
        | zero => cases h
        | succ depth =>
          obtain ⟨b, middle, hb, h⟩ := run_bind_eq_ok.1 h
          obtain ⟨ps, last, hps, h⟩ := run_bind_eq_ok.1 h
          exact .inr (.inr ⟨offset, base, params, depth, b, middle, ps, last, rfl, rfl, hb, hps, h⟩)

/-- **Resolving an index gives what it stands for.** -/
theorem resolve_denotes : ∀ (depth source i : Nat) {state later : Array (Option Multiname)}
    {name : Multiname}, Faithful entries state →
    resolve entries depth source i state = .ok name later →
    Faithful entries later ∧ MultinameEntry.Denotes entries i name := by
  intro depth
  induction depth using Nat.strongRecOn with
  | ind depth ih =>
    intro source i state later name hs h
    rcases resolve_cases h with ⟨hx, rfl⟩ | ⟨x, he, h⟩ |
      ⟨offset, base, params, d, b, middle, ps, last, he, rfl, hb, hps, h⟩
    · exact ⟨hs, hs i name hx⟩
    · exact hs.remember (.plain he) h
    · obtain ⟨hmiddle, hb⟩ := ih d (Nat.lt_succ_self d) _ _ hs hb
      obtain ⟨hlast, hps⟩ := run_mapM_invariant hps hmiddle fun p _ s x t hs hx =>
        ih d (Nat.lt_succ_self d) _ p hs hx
      refine hlast.remember (.application he hb hps.length_eq fun j p x hp hx => ?_) h
      obtain ⟨y, hy, hdenotes⟩ := exists_getElem? hps hp
      cases hx.symm.trans hy
      exact hdenotes

/-- The multinames of a table are those that the indices stand for. -/
theorem resolveMultinames_denotes {names : List Multiname}
    (h : resolveMultinames entries = .ok names) :
    List.Forall₂ (MultinameEntry.Denotes entries) (List.range entries.size) names := by
  unfold resolveMultinames at h
  dsimp only at h
  split at h
  · next found state hr =>
    cases h
    refine (run_mapM_invariant hr ?_ fun i _ s x t hs hx => resolve_denotes _ _ i hs hx).2
    intro i name hi
    rw [Array.getElem?_replicate] at hi
    split at hi <;> cases hi
  · cases h

end Resolution

/-! ## What cannot be resolved -/

/-- What is wrong at `offset` is what a type application there refers to: its parts are nested too
    deeply, or one of them is past the end of the table. -/
inductive MultinameEntry.Blames (entries : Array MultinameEntry) : Nat → Malformation → Prop
  | nesting {i offset base : Nat} {params : List Nat}
    (h : entries[i]? = some (.application offset base params)) :
    Blames entries offset .typeNesting
  | missing {i offset base j : Nat} {params : List Nat}
    (h : entries[i]? = some (.application offset base params)) (hj : j ∈ base :: params)
    (hs : entries.size ≤ j) : Blames entries offset (.indexRange .multiname j)

namespace Resolution

variable {entries : Array MultinameEntry} {fault : Fault}

/-- **What cannot be resolved has no entry, or leads to a type application that is to blame.** -/
theorem blames_of_resolve {depth source i : Nat} {state later : Array (Option Multiname)}
    (h : resolve entries depth source i state = .error fault later) :
    (entries.size ≤ i ∧ fault = .malformed source (.indexRange .multiname i)) ∨
      ∃ offset cause, fault = .malformed offset cause ∧
        MultinameEntry.Blames entries offset cause := by
  induction depth using Nat.strongRecOn generalizing source i state later with
  | ind depth ih =>
    rw [resolve.eq_def, run_get_bind] at h
    cases hx : state[i]?.join with
    | some name =>
      simp only [hx] at h
      cases h
    | none =>
      cases he : entries[i]? with
      | none =>
        simp only [hx, he] at h
        cases h
        exact .inl ⟨Array.getElem?_eq_none_iff.1 he, rfl⟩
      | some entry =>
        simp only [hx, he] at h
        cases entry with
        | plain name => cases h
        | application offset base params =>
          cases depth with
          | zero =>
            cases h
            exact .inr ⟨offset, _, rfl, .nesting he⟩
          | succ depth =>
            -- a part without an entry is the fault of this application
            have hpart : ∀ part ∈ base :: params, ∀ state later,
                resolve entries depth offset part state = .error fault later →
                ∃ offset cause, fault = .malformed offset cause ∧
                  MultinameEntry.Blames entries offset cause := by
              intro part hmem state later h
              rcases ih depth (Nat.lt_succ_self depth) h with ⟨hs, rfl⟩ | h
              · exact ⟨offset, _, rfl, .missing he hmem hs⟩
              · exact h
            refine .inr ?_
            rcases run_bind_eq_error.1 h with hbase | ⟨_, _, -, h⟩
            · exact hpart base List.mem_cons_self _ _ hbase
            rcases run_bind_eq_error.1 h with hparams | ⟨_, _, -, h⟩
            · obtain ⟨part, hmem, _, hp⟩ := exists_of_run_mapM_error hparams
              exact hpart part (List.mem_cons_of_mem base hmem) _ _ hp
            · cases h

theorem blames_of_resolveMultinames (h : resolveMultinames entries = .error fault) :
    ∃ offset cause, fault = .malformed offset cause ∧
      MultinameEntry.Blames entries offset cause := by
  rw [resolveMultinames] at h
  split at h
  · cases h
  · next he =>
    cases h
    obtain ⟨i, hi, _, he⟩ := exists_of_run_mapM_error he
    refine (blames_of_resolve he).resolve_left fun hs => ?_
    exact absurd (List.mem_range.1 hi) (Nat.not_lt.2 hs.1)

/-! ## Entries after their parts -/

/-- What the entries before `k` stand for is remembered. -/
def Known (entries : Array MultinameEntry) (k : Nat) (state : Array (Option Multiname)) : Prop :=
  state.size = entries.size ∧ ∀ j < k, ∃ name, state[j]? = some (some name)

/-- What is remembered is looked up, at any depth. -/
theorem resolve_of_known {k j : Nat} {state : Array (Option Multiname)}
    (h : Known entries k state) (hj : j < k) :
    ∃ name, ∀ depth source, resolve entries depth source j state = .ok name state := by
  obtain ⟨name, hn⟩ := h.2 j hj
  refine ⟨name, fun depth source => ?_⟩
  rw [resolve.eq_def, run_get_bind, hn]
  rfl

theorem Known.remember {k : Nat} {state : Array (Option Multiname)} (h : Known entries k state)
    (hk : k < entries.size) (name : Multiname) :
    ∃ later, Resolution.remember k name state = .ok name later ∧ Known entries (k + 1) later := by
  refine ⟨state.setIfInBounds k (some name), rfl, by simpa using h.1, fun j hj => ?_⟩
  rw [Array.getElem?_setIfInBounds]
  by_cases hjk : k = j
  · rw [if_pos hjk, if_pos (h.1 ▸ hk)]
    exact ⟨name, rfl⟩
  · rw [if_neg hjk]
    exact h.2 j (by omega)

variable (hr : ∀ i j, MultinameEntry.Refers entries i j → j < i)
include hr

/-- An entry whose parts are remembered is resolved. -/
theorem resolve_next (depth source : Nat) {k : Nat} {state : Array (Option Multiname)}
    (h : Known entries k state) (hk : k < entries.size) :
    ∃ name later, resolve entries (depth + 1) source k state = .ok name later ∧
      Known entries (k + 1) later := by
  rw [resolve.eq_def, run_get_bind]
  cases hx : state[k]?.join with
  | some name =>
    refine ⟨name, state, rfl, h.1, fun j hj => ?_⟩
    rcases Nat.lt_succ_iff_lt_or_eq.1 hj with hj | rfl
    · exact h.2 j hj
    · exact ⟨name, Option.join_eq_some_iff.1 hx⟩
  | none =>
    rw [Array.getElem?_eq_getElem hk]
    cases he : entries[k] with
    | plain name =>
      obtain ⟨later, hl, hknown⟩ := h.remember hk name
      exact ⟨name, later, hl, hknown⟩
    | application offset base params =>
      have hpart : ∀ part ∈ base :: params, ∃ name, ∀ depth source,
          resolve entries depth source part state = .ok name state := by
        intro part hmem
        refine resolve_of_known h (hr k part ⟨offset, base, params, ?_, hmem⟩)
        rw [Array.getElem?_eq_getElem hk, he]
      obtain ⟨b, hb⟩ := hpart base List.mem_cons_self
      obtain ⟨ps, hps⟩ : ∃ ps, params.mapM (resolve entries depth offset) state = .ok ps state := by
        have hparams : ∀ part ∈ params, ∃ name, resolve entries depth offset part state =
            .ok name state := fun part hmem =>
          (hpart part (List.mem_cons_of_mem base hmem)).imp fun _ h => h _ _
        exact run_mapM_of_forall hparams
      obtain ⟨later, hl, hknown⟩ := h.remember hk (.applied b ps)
      exact ⟨_, later, (run_bind_of_ok (hb _ _)).trans ((run_bind_of_ok hps).trans hl), hknown⟩

theorem resolve_from (depth : Nat) : ∀ (m k : Nat) (state : Array (Option Multiname)),
    k + m = entries.size → Known entries k state →
    ∃ names later, (List.range' k m).mapM (resolve entries (depth + 1) 0) state = .ok names later
  | 0, _, state, _, _ => ⟨[], state, rfl⟩
  | m + 1, k, state, hk, h => by
    obtain ⟨name, middle, hn, hknown⟩ := resolve_next hr depth 0 h (by omega)
    obtain ⟨names, later, hns⟩ := resolve_from depth m (k + 1) middle (by omega) hknown
    refine ⟨name :: names, later, ?_⟩
    rw [List.range'_succ, List.mapM_cons, run_bind_of_ok hn, run_bind_of_ok hns, run_pure_eq]

/-- **Entries that stand after their parts are resolved.** -/
theorem exists_resolveMultinames : ∃ names, resolveMultinames entries = .ok names := by
  obtain ⟨names, later, h⟩ := resolve_from hr (typeNestingLimit - 1) entries.size 0
    (Array.replicate entries.size none) (Nat.zero_add _) ⟨Array.size_replicate, by simp⟩
  rw [← List.range_eq_range'] at h
  exact ⟨names, by simp only [resolveMultinames]; exact h ▸ rfl⟩

end Resolution

/-! ## The table of multinames -/

namespace Reader

section
variable (strings : Array String) (namespaces : Array Namespace) (sets : Array NamespaceSet)

/-- The parts of a multiname of a given form, and what they make. -/
def multinameByKind (start : Nat) (kind : MultinameKind) : Reader MultinameEntry :=
  let nspace := entryFrom start .nspace (namespaces[·]?)
  let name := entry .string (strings[·]?)
  let set := entryFrom start .namespaceSet (sets[·]?)
  let qualified (attr : Bool) : Reader MultinameEntry := do
    let ns ← nspace
    return .plain (.qualified attr ns (← name))
  let ambiguous (attr : Bool) : Reader MultinameEntry := do
    let name ← name
    return .plain (.ambiguous attr name (← set))
  match kind with
  | .qName => qualified false
  | .qNameA => qualified true
  | .rtqName => return .plain (.runtimeQualified false (← name))
  | .rtqNameA => return .plain (.runtimeQualified true (← name))
  | .rtqNameL => return .plain (.runtime false)
  | .rtqNameLA => return .plain (.runtime true)
  | .multiname => ambiguous false
  | .multinameA => ambiguous true
  | .multinameL => return .plain (.late false (← set))
  | .multinameLA => return .plain (.late true (← set))
  | .typeName => do
    let base ← index
    return .application start base (← list index)

/-- **No multiname that is read is refused.**  The parts that its form needs are those that are
    read. -/
theorem multinameEntry_eq : multinameEntry strings namespaces sets = (do
    let start ← offset
    let tag ← u8
    let kind ← require (MultinameKind.ofByte? tag) start (.multinameKind tag)
    multinameByKind strings namespaces sets start kind) := by
  refine bind_congr fun start => bind_congr fun tag => bind_congr fun kind => ?_
  cases kind <;>
    simp [multinameByKind, part, MultinameKind.hasNamespace, MultinameKind.hasName,
      MultinameKind.hasNamespaceSet, Multiname.ofParts]

end

end Reader

section
variable {strings : Array String} {namespaces : Array Namespace} {sets : Array NamespaceSet}
  {cursor next : Cursor} {entries : List MultinameEntry}

theorem Reader.multinames_of_table
    (h : table (multinameEntry strings namespaces sets) cursor = .ok entries next) :
    multinames strings namespaces sets cursor =
      ofExcept (resolveMultinames (.plain .any :: entries).toArray) next :=
  run_bind_of_ok h

/-- **Type applications are resolved to what their indices refer to, wherever it stands.**  Indices
    that lead in a circle or out of the table are an error in the bytes of an application, and
    indices that lead back towards the start of the table never are, however long the chain. -/
theorem Reader.multinames_exact
    (h : table (multinameEntry strings namespaces sets) cursor = .ok entries next) :
    let raw := MultinameEntry.plain .any :: entries
    let refers := MultinameEntry.Refers raw.toArray
    let read := multinames strings namespaces sets cursor
    (∀ names later, read = .ok names later →
      later = next ∧ List.Forall₂ (MultinameEntry.ResolvesTo names) raw names) ∧
    ((∃ i, Relation.TransGen refers i i) ∨ (∃ i j, refers i j ∧ raw.length ≤ j) →
      ∃ offset cause, read = .error (.malformed offset cause) next ∧
        MultinameEntry.Blames raw.toArray offset cause) ∧
    ((∀ i j, refers i j → j < i) → ∃ names, read = .ok names next) := by
  intro raw refers read
  have hread : read = ofExcept (resolveMultinames raw.toArray) next := multinames_of_table h
  refine ⟨fun names later hn => ?_, fun hbad => ?_, fun hback => ?_⟩
  · cases hr : resolveMultinames raw.toArray with
    | error fault =>
      rw [hread, hr] at hn
      cases hn
    | ok found =>
      rw [hread, hr] at hn
      cases hn
      exact ⟨rfl, MultinameEntry.forall₂_resolvesTo (Resolution.resolveMultinames_denotes hr)⟩
  · cases hr : resolveMultinames raw.toArray with
    | error fault =>
      obtain ⟨offset, cause, rfl, hblames⟩ := Resolution.blames_of_resolveMultinames hr
      exact ⟨offset, cause, hread.trans (by rw [hr]; rfl), hblames⟩
    | ok names =>
      have hdenotes := Resolution.resolveMultinames_denotes hr
      rcases hbad with ⟨i, hcircle⟩ | ⟨i, j, hij, hj⟩
      · obtain ⟨j, hij, -⟩ := Relation.TransGen.head'_iff.1 hcircle
        exact absurd hcircle (hij.lt_and_not_circular hdenotes).2
      · exact absurd hj (Nat.not_le.2 (hij.lt_and_not_circular hdenotes).1)
  · obtain ⟨names, hn⟩ := Resolution.exists_resolveMultinames hback
    exact ⟨names, hread.trans (by rw [hn]; rfl)⟩

/-- A table of which the first entry applies the third to the second, and the second the third
    to any. -/
def forwardTable : Bytes := [4, 0x1d, 3, 1, 2, 0x1d, 3, 1, 0, 0x11]

theorem Reader.multinames_exact_forwardTable : ∃ entries next names,
    table (multinameEntry #[] #[] #[]) (.start forwardTable) = .ok entries next ∧
      multinames #[] #[] #[] (.start forwardTable) = .ok names next ∧
      List.Forall₂ (MultinameEntry.ResolvesTo names) (.plain .any :: entries) names ∧
      names[1]? = some (.applied (.runtime false) [.applied (.runtime false) [.any]]) := by
  have h : table (multinameEntry #[] #[] #[]) (.start forwardTable) =
      .ok [.application 1 3 [2], .application 5 3 [0], .plain (.runtime false)] ⟨10, []⟩ := by rfl
  have hr : resolveMultinames #[.plain .any, .application 1 3 [2], .application 5 3 [0],
      .plain (.runtime false)] = .ok
      [.any, .applied (.runtime false) [.applied (.runtime false) [.any]],
        .applied (.runtime false) [.any], .runtime false] := by decide +kernel
  have hn := (multinames_of_table h).trans (congrArg (ofExcept · ⟨10, []⟩) hr)
  exact ⟨_, _, _, h, hn, ((multinames_exact h).1 _ _ hn).2, rfl⟩

end

end ActionBytecode
