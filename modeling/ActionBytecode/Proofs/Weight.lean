/-
  ActionBytecode — how much a unit can hold.

  The weight of a unit is the number of things in it: constants, the bytes of texts and of code,
  members of sets, parameters, methods, traits and so on, down to the references of a trait to
  metadata.  Bytes say themselves how many things follow, and can say any number.  But each thing
  that is read takes a byte of its own, so a unit weighs no more than the bytes that it was read
  from (`CodeUnit.weight_of_decode`).

  The argument is one bound for each reader, `a.weight ≤ n` for the `n` bytes that the reader takes
  for `a`, passed on from step to step as in `Yields.bind`.
-/
import ActionBytecode.Proofs.Reachability
import ActionBytecode.Proofs.Soundness

namespace ActionBytecode

/-! ## Weights -/

/-- A type application counts with its parameters. -/
def Multiname.weight : Multiname → Nat
  | .applied _ params => 1 + params.length
  | _ => 1

/-- The constants of the tables, the fixed entries left out.  A string counts with its bytes and a
    set with its members. -/
def Pool.weight (pool : Pool) : Nat :=
  (pool.ints.size - 1) + (pool.uints.size - 1) + (pool.doubles.size - 1) +
    (pool.strings.toList.tail.map fun s => 1 + (Utf8.encode s).length).sum +
    (pool.namespaces.size - 1) +
    (pool.namespaceSets.toList.tail.map fun set => 1 + set.size).sum +
    (pool.multinames.toList.tail.map Multiname.weight).sum

/-- A trait counts with its references to metadata. -/
def Trait.weight (t : Trait) : Nat := 1 + t.metadata.length

def Traits.weight (traits : List Trait) : Nat := (traits.map Trait.weight).sum

/-- A signature counts with its parameters, optional values and parameter names. -/
def Signature.weight (signature : Signature) : Nat :=
  1 + signature.parameters.length + signature.optional.length + signature.parameterNames.length

/-- Code counts by its bytes or instructions, and by its handlers. -/
def Code.weight : Code → Nat
  | raw bytes handlers => bytes.length + handlers.length
  | symbolic instructions handlers => instructions.length + handlers.length

def Body.weight (body : Body) : Nat := 1 + body.code.weight + Traits.weight body.traits

def Method.weight (method : Method) : Nat :=
  method.toSignature.weight + method.body.elim 0 Body.weight

def Metadata.weight (entry : Metadata) : Nat := 1 + entry.items.length

def ClassDefinition.weight (cls : ClassDefinition) : Nat :=
  1 + cls.interfaces.length + Traits.weight cls.instanceTraits + Traits.weight cls.staticTraits

def Script.weight (script : Script) : Nat := 1 + Traits.weight script.traits

/-- The number of things in a unit. -/
def CodeUnit.weight (unit : CodeUnit) : Nat :=
  unit.pool.weight + (unit.methods.toList.map Method.weight).sum +
    (unit.metadata.map Metadata.weight).sum + (unit.classes.toList.map ClassDefinition.weight).sum +
    (unit.scripts.map Script.weight).sum

/-- A multiname as it stands in the table. -/
def MultinameEntry.weight : MultinameEntry → Nat
  | .plain name => name.weight
  | .application _ _ params => 1 + params.length

/-- What an index stands for weighs what its entry does. -/
theorem MultinameEntry.Denotes.weight_eq {entries : Array MultinameEntry} {i : Nat}
    {name : Multiname} (h : Denotes entries i name) :
    entries[i]?.map MultinameEntry.weight = some name.weight := by
  cases h with
  | plain h =>
    rw [h]
    rfl
  | application h _ hl _ =>
    rw [h]
    simp [MultinameEntry.weight, Multiname.weight, hl]

/-- Resolving the entries of a table keeps the weight of each. -/
theorem map_weight_of_resolveMultinames {entries : Array MultinameEntry} {names : List Multiname}
    (h : resolveMultinames entries = .ok names) :
    names.map Multiname.weight = entries.toList.map MultinameEntry.weight := by
  have hdenotes := Resolution.resolveMultinames_denotes h
  refine List.ext_getElem? fun i => ?_
  rw [List.getElem?_map, List.getElem?_map]
  by_cases hi : i < entries.size
  · obtain ⟨name, hname, hd⟩ := exists_getElem? hdenotes (List.getElem?_range hi)
    rw [hname, Array.getElem?_toList, hd.weight_eq]
    rfl
  · have hlength : names.length = entries.size := by
      rw [← hdenotes.length_eq, List.length_range]
    rw [List.getElem?_eq_none (by omega), List.getElem?_eq_none (Nat.le_of_not_lt hi)]
    rfl

/-! ## Repetition -/

namespace Reader

section
variable {α : Type} {limit : Nat} {read : Reader α} {w : α → Nat}

theorem Yields.weigh_times (h : Yields limit read fun n a => w a ≤ n) (k : Nat) :
    Yields limit (Reader.times k read) fun n as => as.length = k ∧ (as.map w).sum ≤ n :=
  (Yields.sum_times (h.mono fun _ _ _ ha => ⟨ha, trivial⟩) k).mono fun _ _ _ h => ⟨h.1, h.2.1⟩

/-- A counted list weighs one less than it takes, for the count. -/
theorem Yields.weigh_list (h : Yields limit read fun n a => w a ≤ n) :
    Yields limit (Reader.list read) fun n as => 1 + (as.map w).sum ≤ n :=
  yields_index.bind fun _ k hm => (h.weigh_times k).mono fun _ _ _ h => by omega

theorem Yields.weigh_table (h : Yields limit read fun n a => w a ≤ n) :
    Yields limit (Reader.table read) fun n as => 1 + (as.map w).sum ≤ n :=
  yields_index.bind fun _ k hm => (h.weigh_times (k - 1)).mono fun _ _ _ h => by omega

theorem Yields.length_list (h : Yields limit read fun n _ => 1 ≤ n) :
    Yields limit (Reader.list read) fun n as => 1 + as.length ≤ n := by
  have hone := Yields.weigh_list (w := fun _ => 1) h
  simpa using hone

theorem Yields.length_table (h : Yields limit read fun n _ => 1 ≤ n) :
    Yields limit (Reader.table read) fun n as => 1 + as.length ≤ n := by
  have hone := Yields.weigh_table (w := fun _ => 1) h
  simpa using hone

/-- Readers that add to what is there. -/
theorem Yields.weigh_mapM {γ : Type} {read : γ → Reader α} {v : γ → Nat}
    (h : ∀ x, Yields limit (read x) fun n a => w a ≤ v x + n) (xs : List γ) :
    Yields limit (xs.mapM read) fun n as => (as.map w).sum ≤ (xs.map v).sum + n := by
  induction xs with
  | nil => exact yields_pure (Nat.le_refl 0)
  | cons x xs ih =>
    rw [List.mapM_cons]
    refine (h x).bind fun m a ha => ih.bind fun n as has => yields_pure ?_
    simp only [List.map_cons, List.sum_cons]
    omega

theorem takes_entry {table : Table} {find : Nat → Option α} :
    Yields limit (entry table find) fun n _ => 1 ≤ n :=
  yields_entry.mono fun _ _ _ h => h.1

theorem takes_entryFrom {start : Nat} {table : Table} {find : Nat → Option α} :
    Yields limit (entryFrom start table find) fun n _ => 1 ≤ n :=
  yields_entryFrom.mono fun _ _ _ h => h.1

end

/-! ## Constants -/

section
variable {limit : Nat} {strings : Array String} {namespaces : Array Namespace}
  {sets : Array NamespaceSet}

theorem takes_namespaceEntry : Yields limit (namespaceEntry strings) fun n _ => 1 ≤ n :=
  yields_namespaceEntry.mono fun _ _ _ h => h.1

theorem weigh_namespaceSet :
    Yields limit (namespaceSet namespaces) fun n set => 1 + set.size ≤ n := by
  refine takes_entry.length_list.bind fun n members hn => yields_pure ?_
  have := NamespaceSet.length_ofList members
  rw [NamespaceSet.size]
  omega

theorem weigh_multinameEntry :
    Yields limit (multinameEntry strings namespaces sets) fun n entry => entry.weight ≤ n := by
  rw [multinameEntry_eq]
  refine yields_offset_bind fun start => yields_u8.bind fun m tag hm =>
    yields_require_bind fun kind _ => ?_
  subst hm
  have hone (name : Multiname) (n : Nat) (h : name.weight = 1) :
      (MultinameEntry.plain name).weight ≤ 1 + n := by
    rw [MultinameEntry.weight, h]
    omega
  cases kind with
  | qName | qNameA =>
    exact takes_entryFrom.bind fun _ _ _ => takes_entry.bind fun _ _ _ =>
      yields_pure (hone _ _ rfl)
  | rtqName | rtqNameA => exact takes_entry.bind fun _ _ _ => yields_pure (hone _ _ rfl)
  | rtqNameL | rtqNameLA => exact yields_pure (hone _ _ rfl)
  | multiname | multinameA =>
    exact takes_entry.bind fun _ _ _ => takes_entryFrom.bind fun _ _ _ =>
      yields_pure (hone _ _ rfl)
  | multinameL | multinameLA => exact takes_entryFrom.bind fun _ _ _ => yields_pure (hone _ _ rfl)
  | typeName =>
    refine yields_index.bind fun m base hm => yields_index.length_list.bind fun n params hn =>
      yields_pure ?_
    rw [MultinameEntry.weight]
    omega

theorem weigh_multinames : Yields limit (multinames strings namespaces sets) fun n names =>
    1 + (names.tail.map Multiname.weight).sum ≤ n := by
  refine weigh_multinameEntry.weigh_table.bind fun n entries hn => yields_ofExcept fun names h => ?_
  have hweights := congrArg List.tail (map_weight_of_resolveMultinames h)
  rw [← List.map_tail, List.map_cons, List.tail_cons] at hweights
  rw [hweights]
  omega

/-- Each of the seven tables takes a byte for its count. -/
theorem weigh_pool : Yields limit pool fun n pool => 7 + pool.weight ≤ n := by
  refine yields_s32.length_table.bind fun _ ints hints =>
    yields_u32.length_table.bind fun _ uints huints =>
    yields_d64.length_table.bind fun _ doubles hdoubles =>
    yields_text.weigh_table.bind fun _ strings hstrings =>
    takes_namespaceEntry.length_table.bind fun _ namespaces hnamespaces =>
    weigh_namespaceSet.weigh_table.bind fun _ sets hsets =>
    weigh_multinames.bind fun _ names hnames => yields_pure ?_
  simp only [Pool.weight, List.size_toArray, List.length_cons, Nat.add_sub_cancel, List.tail_cons,
    namespacesOf, List.length_map, List.length_zipIdx]
  omega

end

/-! ## Declarations -/

section
variable {limit : Nat} {tables : Tables}

theorem takes_member (kind : MemberKind) : Yields limit (member tables kind) fun n _ => 1 ≤ n :=
  (yields_memberOf kind).mono fun _ _ _ h => h.1

theorem weigh_trait : Yields limit (traitEntry tables) fun n t => t.weight ≤ n := by
  refine takes_entry.bind fun m name hm => yields_offset_bind fun start =>
    yields_u8.bind fun _ bits _ => yields_require_bind fun kind _ =>
      (takes_member kind).bind fun _ member _ => ?_
  have hmetadata : Yields limit
      (if bits &&& 0x40 ≠ 0 then list (metadataIndex tables) else pure []) fun n indices =>
        indices.length ≤ n :=
    Yields.ite (fun _ => takes_entry.length_list.mono fun _ _ _ h => by omega) fun _ =>
      yields_pure (Nat.le_refl 0)
  refine hmetadata.bind_ite fun n indices hn => yields_pure ?_
  simp only [Trait.weight]
  omega

theorem weigh_traits : Yields limit (traits tables) fun n traits => 1 + Traits.weight traits ≤ n :=
  weigh_trait.weigh_list

theorem weigh_signature :
    Yields limit (signature tables) fun n signature => signature.weight ≤ n := by
  refine yields_index.bind fun m count hm => takes_entry.bind fun _ returnType _ =>
    (Yields.times (takes_entry.mono fun _ _ _ h => ⟨h, trivial⟩) count).bind ?_
  rintro _ parameters ⟨hparameters, hcount, -⟩
  refine takes_entry.bind fun _ name _ => yields_u8.bind fun _ bits _ => ?_
  have hoptional : Yields limit
      (if bits &&& 0x08 ≠ 0 then optionalValues tables count else pure []) fun n values =>
        values.length ≤ n :=
    Yields.ite (fun _ => yields_offset_bind fun _ => yields_index.bind fun _ k _ =>
      yields_refuse fun _ => (yields_value.times k).mono fun _ _ _ h => by omega) fun _ =>
        yields_pure (Nat.le_refl 0)
  have hnames : Yields limit
      (if bits &&& 0x80 ≠ 0 then times count (string tables) else pure []) fun n names =>
        names.length ≤ n :=
    Yields.ite (fun _ => (yields_string.times count).mono fun _ _ _ h => by omega) fun _ =>
      yields_pure (Nat.le_refl 0)
  refine hoptional.bind_ite fun _ optional _ => hnames.bind_ite fun _ names _ => yields_pure ?_
  simp only [Signature.weight]
  omega

theorem weigh_body : Yields limit (body tables) fun n body => body.weight ≤ n := by
  refine yields_u30.bind fun _ maxStack hstack => yields_u30.bind fun _ localCount _ =>
    yields_u30.bind fun _ initScopeDepth _ => yields_u30.bind fun _ maxScopeDepth _ =>
      yields_index.bind fun _ length _ => (yields_bytes length).bind fun _ code hcode => ?_
  have hhandler : Yields limit (handler tables) fun n _ => 1 ≤ n :=
    yields_handler.mono fun _ _ _ h => h.1
  refine hhandler.length_list.bind fun _ handlers _ => weigh_traits.bind fun _ traits _ =>
    yields_pure ?_
  simp only [Body.weight, Code.weight, List.length_map]
  omega

theorem weigh_instanceSide : Yields limit (instanceSide tables) fun n cls => cls.weight ≤ n := by
  refine takes_entry.bind fun _ name _ => takes_entry.bind fun _ superName _ =>
    yields_u8.bind fun _ bits hbits => ?_
  have hprotected : Yields limit (if bits &&& 0x08 ≠ 0 then some <$> nspace tables else pure none)
      fun _ _ => True :=
    Yields.ite (fun _ => takes_entry.bind fun _ _ _ => yields_pure trivial) fun _ =>
      yields_pure trivial
  refine hprotected.bind_ite fun _ ns _ => takes_entry.length_list.bind fun _ interfaces _ =>
    takes_entry.bind fun _ constructor _ => weigh_traits.bind fun _ traits _ => yields_pure ?_
  simp only [ClassDefinition.weight, Traits.weight, List.map_nil, List.sum_nil] at *
  omega

theorem weigh_staticSide (cls : ClassDefinition) :
    Yields limit (staticSide tables cls) fun n later => later.weight ≤ cls.weight + n := by
  refine takes_entry.bind fun _ staticInit _ => weigh_traits.bind fun _ traits _ => yields_pure ?_
  simp only [ClassDefinition.weight]
  omega

theorem weigh_script : Yields limit (script tables) fun n script => script.weight ≤ n := by
  refine takes_entry.bind fun _ init _ => weigh_traits.bind fun _ traits _ => yields_pure ?_
  simp only [Script.weight]
  omega

theorem weigh_metadata : Yields limit (metadata tables) fun n entry => entry.weight ≤ n := by
  have hitem : Yields limit (metadataItem tables) fun n _ => 1 ≤ n :=
    takes_entry.bind fun _ _ _ => takes_entry.bind fun _ _ _ => yields_pure (by omega)
  refine takes_entry.bind fun _ name _ => hitem.length_list.bind fun _ items _ => yields_pure ?_
  simp only [Metadata.weight]
  omega

/-! ## Units -/

/-- What one method gains, all methods together gain. -/
theorem sum_modify_le {f : Method → Method} {gain : Nat}
    (h : ∀ method, (f method).weight ≤ method.weight + gain) (methods : List Method) (i : Nat) :
    ((methods.modify i f).map Method.weight).sum ≤ (methods.map Method.weight).sum + gain := by
  induction methods generalizing i with
  | nil => simp
  | cons method methods ih =>
    cases i with
    | zero =>
      have := h method
      simp only [List.modify_zero_cons, List.map_cons, List.sum_cons]
      omega
    | succ i =>
      have := ih i
      simp only [List.modify_succ_cons, List.map_cons, List.sum_cons]
      omega

theorem weigh_bodies : ∀ (count : Nat) (methods : Array Method),
    Yields limit (bodies tables count methods) fun n later =>
      (later.toList.map Method.weight).sum ≤ (methods.toList.map Method.weight).sum + n
  | 0, methods => yields_pure (Nat.le_refl _)
  | count + 1, methods => by
    refine yields_offset_bind fun start => takes_entry.bind fun _ handle _ =>
      weigh_body.bind fun _ body _ => yields_refuse fun _ =>
        (weigh_bodies count _).mono fun n later _ hlater => ?_
    have hgain (method : Method) : ({ method with body := some body } : Method).weight ≤
        method.weight + body.weight := by
      simp only [Method.weight, Option.elim_some]
      omega
    have := sum_modify_le hgain methods.toList handle.index
    rw [Array.toList_modify] at hlater
    omega

/-- Four bytes for the version, and one for each of twelve counts. -/
theorem weigh_sections : Yields limit sections fun n unit => unit.weight + 16 ≤ n := by
  refine yields_version.bind fun _ _ _ => weigh_pool.bind fun _ pool _ =>
    weigh_signature.weigh_list.bind fun _ signatures _ =>
    weigh_metadata.weigh_list.bind fun _ metadata _ => yields_index.bind fun _ classCount _ => ?_
  dsimp only
  refine (weigh_instanceSide.weigh_times classCount).bind fun _ instances _ =>
    (Yields.weigh_mapM weigh_staticSide instances).bind fun _ classes _ =>
    weigh_script.weigh_list.bind fun _ scripts _ => yields_index.bind fun _ bodyCount _ =>
    (weigh_bodies bodyCount _).bind fun _ methods hmethods => yields_pure ?_
  have hsignatures : ((signatures.map fun signature =>
      ({ signature with body := none } : Method)).map Method.weight).sum =
      (signatures.map Signature.weight).sum := by
    rw [List.map_map]
    rfl
  rw [hsignatures] at hmethods
  simp only [CodeUnit.weight]
  omega

end

end Reader

/-- Examining the code of a method does not change its weight. -/
theorem Method.Examined.weight_eq {tables : Tables} {method examined : Method}
    (h : method.Examined tables examined) : method.weight = examined.weight := by
  obtain ⟨⟨file, rfl⟩, -⟩ := h.exists_disassemble
  rfl

/-- **A unit weighs no more than the bytes that it was read from**, whatever counts they declare.
    Sixteen of them are the version and the counts of the sections. -/
theorem CodeUnit.weight_of_decode {bytes : Bytes} {unit : CodeUnit}
    (h : decode bytes = .ok unit) : unit.weight + 16 ≤ bytes.length := by
  obtain ⟨parsed, cursor, methods, hs, hexamined, rfl⟩ := sections_of_decode h
  obtain ⟨taken, htaken, hweight⟩ :=
    Reader.weigh_sections (.start bytes) _ _ (Nat.le_refl _) hs
  have hmethods : methods.map Method.weight = parsed.methods.toList.map Method.weight :=
    (map_eq_map_iff.2 (hexamined.imp fun _ _ he => he.weight_eq)).symm
  have hstart : (Cursor.start bytes).remaining = bytes.length := rfl
  simp only [CodeUnit.weight, hmethods] at hweight ⊢
  omega

/-- Bytes with something of each kind.  Of the three members that the set lists, two are the
    same. -/
def crowdedBytes : Bytes :=
  [16, 0, 46, 0] ++ [2, 5] ++ [2, 7] ++ [2, 0, 0, 0, 0, 0, 0, 0xf8, 0x3f] ++
    [4, 1, 0x61, 2, 0x62, 0x63, 0] ++ [3, 0x16, 1, 5, 2] ++ [2, 3, 1, 2, 1] ++
    [5, 7, 1, 1, 9, 2, 1, 0x1d, 1, 2, 1, 2, 0x11] ++
    [2, 2, 0, 1, 2, 1, 0x88, 1, 1, 3, 1, 2, 0, 0, 0, 0] ++ [1, 1, 2, 0, 1, 2, 1] ++
    [1, 1, 0, 8, 1, 1, 2, 0, 1, 1, 0x40, 0, 0, 0, 2, 0, 0, 1, 1, 2, 1, 0, 0] ++
    [1, 0, 1, 1, 4, 0, 0] ++ [1, 0, 1, 1, 0, 1, 2, 2, 0x47, 1, 0, 1, 1, 0, 0, 1, 1, 6, 0, 0, 0]

theorem CodeUnit.weight_of_decode_crowdedBytes : ∃ unit, decode crowdedBytes = .ok unit ∧
    unit.weight = 43 ∧ unit.weight + 16 ≤ crowdedBytes.length := by
  have hok : (decode crowdedBytes).toOption.map weight = some 43 := by decide +kernel
  obtain ⟨unit, hd, hweight⟩ := Option.map_eq_some_iff.1 hok
  rw [toOption_eq_some] at hd
  exact ⟨unit, hd, hweight, weight_of_decode hd⟩

end ActionBytecode
