/-
  ActionBytecode — computations that succeed.

  What is known of the parts of a computation when the whole of it succeeds: of a sequence
  (`bind_eq_ok`, `run_bind_eq_ok`), of a computation done for each member of a list
  (`mapM_eq_ok`), and of one that carries a state through a list.
-/
import ActionBytecode.Fault
import Mathlib.Data.List.Forall2

namespace ActionBytecode

/-! ## Without a state -/

section
variable {ε α β : Type}

theorem bind_eq_ok {x : Except ε α} {f : α → Except ε β} {b : β} :
    x >>= f = .ok b ↔ ∃ a, x = .ok a ∧ f a = .ok b := by
  cases x <;> simp [bind, Except.bind]

theorem bind_eq_error {x : Except ε α} {f : α → Except ε β} {e : ε} :
    x >>= f = .error e ↔ x = .error e ∨ ∃ a, x = .ok a ∧ f a = .error e := by
  cases x <;> simp [bind, Except.bind]

/-- A sequence whose first part is one of two. -/
theorem ite_bind_eq_ok {c : Prop} [Decidable c] {x y : Except ε α} {f : α → Except ε β} {b : β} :
    (if c then x >>= f else y >>= f) = .ok b ↔
      ∃ a, (if c then x else y) = .ok a ∧ f a = .ok b := by
  split <;> exact bind_eq_ok

/-- A condition that is refused. -/
theorem ite_throw_eq_ok {c : Prop} [Decidable c] {e : ε} {f : α → Except ε β} {y : Except ε β}
    {b : β} : (if c then throw e >>= f else y) = .ok b ↔ ¬ c ∧ y = .ok b := by
  by_cases hc : c
  · simp [hc, throw, throwThe, MonadExceptOf.throw, bind, Except.bind]
  · simp [hc]

theorem map_eq_ok {x : Except ε α} {f : α → β} {b : β} :
    f <$> x = .ok b ↔ ∃ a, x = .ok a ∧ f a = b := by
  cases x <;> simp [Functor.map, Except.map]

@[simp] theorem pure_eq_ok {a b : α} : (pure a : Except ε α) = .ok b ↔ a = b := by
  simp [pure, Except.pure]

/-- The computation does not fail. -/
def Succeeds (x : Except ε α) : Prop := ∃ a, x = .ok a

theorem succeeds_ok (a : α) : Succeeds (.ok a : Except ε α) := ⟨a, rfl⟩

theorem Succeeds.bind {x : Except ε α} {f : α → Except ε β} (h : Succeeds x)
    (h' : ∀ a, x = .ok a → Succeeds (f a)) : Succeeds (x >>= f) := by
  obtain ⟨a, ha⟩ := h
  obtain ⟨b, hb⟩ := h' a ha
  exact ⟨b, bind_eq_ok.2 ⟨a, ha, hb⟩⟩

/-- A sequence whose first part cannot fail hangs on what follows. -/
theorem Succeeds.bind_iff {x : Except ε α} {f : α → Except ε β} {p : Prop} (h : Succeeds x)
    (h' : ∀ a, x = .ok a → (Succeeds (f a) ↔ p)) : Succeeds (x >>= f) ↔ p := by
  obtain ⟨a, rfl⟩ := h
  exact h' a rfl

/-- A sequence in which only the first part can fail. -/
theorem succeeds_bind_iff {x : Except ε α} {f : α → Except ε β}
    (h : ∀ a, x = .ok a → Succeeds (f a)) : Succeeds (x >>= f) ↔ Succeeds x := by
  cases x with
  | error e => simp [Succeeds, Bind.bind, Except.bind]
  | ok a => exact iff_of_true (h a rfl) (succeeds_ok a)

/-- A sequence both parts of which can fail. -/
theorem succeeds_bind_and {x : Except ε α} {f : α → Except ε β} {p q : Prop}
    (h : Succeeds x ↔ p) (h' : ∀ a, x = .ok a → (Succeeds (f a) ↔ q)) :
    Succeeds (x >>= f) ↔ p ∧ q := by
  rw [← h]
  cases x with
  | error e => simp [Succeeds, Bind.bind, Except.bind]
  | ok a => exact (h' a rfl).trans (and_iff_right (succeeds_ok a)).symm

theorem succeeds_bind_pure {x : Except ε α} {f : α → β} :
    Succeeds (x >>= fun a => pure (f a)) ↔ Succeeds x :=
  succeeds_bind_iff fun a _ => succeeds_ok (f a)

theorem succeeds_map {x : Except ε α} {f : α → β} : Succeeds (f <$> x) ↔ Succeeds x := by
  simp [Succeeds, map_eq_ok]

theorem succeeds_ite_throw {c : Prop} [Decidable c] {e : ε} {f : α → Except ε β}
    {y : Except ε β} : Succeeds (if c then throw e >>= f else y) ↔ ¬ c ∧ Succeeds y := by
  simp only [Succeeds, ite_throw_eq_ok, exists_and_left]

theorem forall₂_of_mem {R S : α → β → Prop} {xs : List α} {ys : List β}
    (h : List.Forall₂ R xs ys) (hS : ∀ x ∈ xs, ∀ y, R x y → S x y) : List.Forall₂ S xs ys := by
  induction h with
  | nil => exact .nil
  | cons hxy _ ih =>
    rw [List.forall_mem_cons] at hS
    exact .cons (hS.1 _ hxy) (ih hS.2)

theorem forall₂_comp {γ : Type} {R : α → β → Prop} {S : β → γ → Prop} {T : α → γ → Prop}
    {xs : List α} {ys : List β} {zs : List γ} (h : List.Forall₂ R xs ys)
    (h' : List.Forall₂ S ys zs) (hT : ∀ x ∈ xs, ∀ y z, R x y → S y z → T x z) :
    List.Forall₂ T xs zs := by
  induction h generalizing zs with
  | nil =>
    cases h'
    exact .nil
  | cons hxy _ ih =>
    cases h' with
    | cons hyz h' =>
      rw [List.forall_mem_cons] at hT
      exact .cons (hT.1 _ _ hxy hyz) (ih h' hT.2)

theorem map_eq_iff {f : α → β} {xs : List α} {ys : List β} :
    xs.map f = ys ↔ List.Forall₂ (fun x y => f x = y) xs ys := by
  rw [← List.forall₂_eq_eq_eq, List.forall₂_map_left_iff]

theorem map_eq_map_iff {γ : Type} {f : α → γ} {g : β → γ} {xs : List α} {ys : List β} :
    xs.map f = ys.map g ↔ List.Forall₂ (fun x y => f x = g y) xs ys := by
  rw [map_eq_iff, List.forall₂_map_right_iff]

theorem exists_mem_left {R : α → β → Prop} {xs : List α} {ys : List β} (h : List.Forall₂ R xs ys)
    {y : β} (hy : y ∈ ys) : ∃ x ∈ xs, R x y := by
  induction h with
  | nil => cases hy
  | cons hxy _ ih =>
    rcases List.mem_cons.1 hy with rfl | hy
    · exact ⟨_, List.mem_cons_self, hxy⟩
    · obtain ⟨x, hx, hR⟩ := ih hy
      exact ⟨x, List.mem_cons_of_mem _ hx, hR⟩

theorem exists_getElem? {R : α → β → Prop} {xs : List α} {ys : List β}
    (h : List.Forall₂ R xs ys) {i : Nat} {x : α} (hx : xs[i]? = some x) :
    ∃ y, ys[i]? = some y ∧ R x y := by
  obtain ⟨hi, rfl⟩ := List.getElem?_eq_some_iff.1 hx
  have hi' : i < ys.length := h.length_eq ▸ hi
  exact ⟨ys[i], List.getElem?_eq_getElem hi', h.get hi hi'⟩

theorem getElem?_map_range (make : Nat → α) (size i : Nat) :
    ((List.range size).map make)[i]? = if i < size then some (make i) else none := by
  split <;> simp_all

/-- A computation done for each member of a list succeeds when each of them does. -/
theorem mapM_eq_ok {f : α → Except ε β} {xs : List α} {ys : List β} :
    xs.mapM f = .ok ys ↔ List.Forall₂ (fun x y => f x = .ok y) xs ys := by
  induction xs generalizing ys with
  | nil => cases ys <;> simp [pure_eq_ok]
  | cons x xs ih =>
    rw [List.mapM_cons, bind_eq_ok]
    constructor
    · rintro ⟨y, hy, h⟩
      obtain ⟨zs, hzs, h⟩ := bind_eq_ok.1 h
      rw [← pure_eq_ok.1 h]
      exact .cons hy (ih.1 hzs)
    · intro h
      cases h with
      | cons hy hys => exact ⟨_, hy, bind_eq_ok.2 ⟨_, ih.2 hys, rfl⟩⟩

/-- Where a computation done for each member of a list fails, it fails for a member. -/
theorem exists_of_mapM_error {f : α → Except ε β} {xs : List α} {e : ε}
    (h : xs.mapM f = .error e) : ∃ x ∈ xs, f x = .error e := by
  induction xs with
  | nil => cases h
  | cons x xs ih =>
    rw [List.mapM_cons] at h
    rcases bind_eq_error.1 h with hx | ⟨y, -, h⟩
    · exact ⟨x, List.mem_cons_self, hx⟩
    rcases bind_eq_error.1 h with hxs | ⟨ys, -, h⟩
    · obtain ⟨z, hz, he⟩ := ih hxs
      exact ⟨z, List.mem_cons_of_mem x hz, he⟩
    · cases h

theorem mapM_isOk {f : α → Except ε β} {xs : List α} :
    Succeeds (xs.mapM f) ↔ ∀ x ∈ xs, Succeeds (f x) := by
  simp only [Succeeds, mapM_eq_ok]
  induction xs with
  | nil => exact ⟨fun _ => by simp, fun _ => ⟨[], .nil⟩⟩
  | cons x xs ih =>
    rw [List.forall_mem_cons, ← ih]
    constructor
    · rintro ⟨ys, h⟩
      cases h with
      | cons hy hys => exact ⟨⟨_, hy⟩, _, hys⟩
    · rintro ⟨⟨y, hy⟩, ys, hys⟩
      exact ⟨y :: ys, .cons hy hys⟩

/-- The computation gives `a` if `p` holds, and fails if not. -/
def GivesIf (x : Except ε α) (p : Prop) (a : α) : Prop :=
  (p → x = .ok a) ∧ (¬ p → ∃ e, x = .error e)

theorem GivesIf.of_eq {x : Except ε α} {p q : Prop} {a b : α} (h : GivesIf x p a) (hp : p ↔ q)
    (ha : a = b) : GivesIf x q b := by
  rwa [← propext hp, ← ha]

theorem givesIf_of_eq {x : Except ε α} {a : α} (h : x = .ok a) : GivesIf x True a :=
  ⟨fun _ => h, fun hp => absurd trivial hp⟩

theorem GivesIf.bind {x : Except ε α} {f : α → Except ε β} {p q : Prop} {a : α} {b : β}
    (h : GivesIf x p a) (h' : p → GivesIf (f a) q b) : GivesIf (x >>= f) (p ∧ q) b := by
  by_cases hp : p
  · rw [h.1 hp]
    exact ⟨fun hq => (h' hp).1 hq.2, fun hq => (h' hp).2 fun hq' => hq ⟨hp, hq'⟩⟩
  · obtain ⟨e, he⟩ := h.2 hp
    rw [he]
    exact ⟨fun hq => absurd hq.1 hp, fun _ => ⟨e, rfl⟩⟩

theorem GivesIf.bind_pure {x : Except ε α} {p : Prop} {a : α} (h : GivesIf x p a) (f : α → β) :
    GivesIf (x >>= fun a => pure (f a)) p (f a) := by
  have hpure : GivesIf (pure (f a) : Except ε β) True (f a) := givesIf_of_eq rfl
  exact GivesIf.of_eq (h.bind fun _ => hpure) (and_iff_left trivial) rfl

theorem GivesIf.mapM {γ : Type} {f : γ → Except ε β} {known : α → γ} {g : α → β} {p : α → Prop}
    {xs : List α} (h : ∀ x ∈ xs, GivesIf (f (known x)) (p x) (g x)) :
    GivesIf ((xs.map known).mapM f) (∀ x ∈ xs, p x) (xs.map g) := by
  induction xs with
  | nil => exact ⟨fun _ => rfl, fun hp => absurd (by simp) hp⟩
  | cons x xs ih =>
    rw [List.forall_mem_cons] at h
    rw [List.map_cons, List.mapM_cons]
    exact GivesIf.of_eq (h.1.bind fun _ => (ih h.2).bind_pure _) (by simp) rfl

end

/-! ## With a state -/

section
variable {ε σ α β : Type}

theorem run_bind_eq_ok {x : EStateM ε σ α} {f : α → EStateM ε σ β} {s t : σ} {b : β} :
    (x >>= f) s = .ok b t ↔ ∃ a u, x s = .ok a u ∧ f a u = .ok b t := by
  show EStateM.bind x f s = _ ↔ _
  unfold EStateM.bind
  cases x s <;> simp

theorem run_bind_eq_error {x : EStateM ε σ α} {f : α → EStateM ε σ β} {s t : σ} {e : ε} :
    (x >>= f) s = .error e t ↔
      x s = .error e t ∨ ∃ a u, x s = .ok a u ∧ f a u = .error e t := by
  show EStateM.bind x f s = _ ↔ _
  unfold EStateM.bind
  cases x s <;> simp

theorem run_bind_of_ok {x : EStateM ε σ α} {f : α → EStateM ε σ β} {s u : σ} {a : α}
    (h : x s = .ok a u) : (x >>= f) s = f a u := by
  show EStateM.bind x f s = _
  rw [EStateM.bind, h]

theorem run_bind_of_error {x : EStateM ε σ α} {f : α → EStateM ε σ β} {s u : σ} {e : ε}
    (h : x s = .error e u) : (x >>= f) s = .error e u := by
  show EStateM.bind x f s = _
  rw [EStateM.bind, h]

@[simp] theorem run_pure_eq (a : α) (s : σ) : (pure a : EStateM ε σ α) s = .ok a s := rfl

theorem run_get_bind (f : σ → EStateM ε σ β) (s : σ) :
    ((get : EStateM ε σ σ) >>= f) s = f s s := rfl

/-- A computation that leaves the state alone, done for each member of a list. -/
theorem run_mapM_of_forall₂ {f : α → EStateM ε σ β} {xs : List α} {ys : List β} {s : σ}
    (h : List.Forall₂ (fun x y => f x s = .ok y s) xs ys) : xs.mapM f s = .ok ys s := by
  induction h with
  | nil => rfl
  | cons hx _ ih => rw [List.mapM_cons, run_bind_of_ok hx, run_bind_of_ok ih, run_pure_eq]

theorem run_mapM_of_forall {f : α → EStateM ε σ β} {xs : List α} {s : σ}
    (h : ∀ x ∈ xs, ∃ y, f x s = .ok y s) : ∃ ys, xs.mapM f s = .ok ys s := by
  induction xs with
  | nil => exact ⟨[], rfl⟩
  | cons x xs ih =>
    rw [List.forall_mem_cons] at h
    obtain ⟨y, hy⟩ := h.1
    obtain ⟨ys, hys⟩ := ih h.2
    exact ⟨y :: ys, by rw [List.mapM_cons, run_bind_of_ok hy, run_bind_of_ok hys, run_pure_eq]⟩

/-- A computation that succeeds in every state, done for each member of a list. -/
theorem run_mapM_exists {γ : Type} {f : α → EStateM ε σ β} {S : β → γ → Prop} {xs : List α}
    {zs : List γ}
    (h : List.Forall₂ (fun x z => ∀ s, ∃ y t, f x s = .ok y t ∧ S y z) xs zs) :
    ∀ s, ∃ ys t, xs.mapM f s = .ok ys t ∧ List.Forall₂ S ys zs := by
  induction h with
  | nil => exact fun s => ⟨[], s, rfl, .nil⟩
  | cons hx _ ih =>
    intro s
    obtain ⟨y, t, hy, hS⟩ := hx s
    obtain ⟨ys, u, hys, hSs⟩ := ih t
    refine ⟨y :: ys, u, ?_, .cons hS hSs⟩
    rw [List.mapM_cons, run_bind_of_ok hy, run_bind_of_ok hys, run_pure_eq]

/-- A computation whose success does not hang on the state, done for each member of a list. -/
theorem run_mapM_isOk {γ : Type} {f : α → EStateM ε σ β} {p : γ → Prop} {xs : List α}
    {zs : List γ} (h : List.Forall₂ (fun x z => ∀ s, (∃ y t, f x s = .ok y t) ↔ p z) xs zs) :
    ∀ s, (∃ ys t, xs.mapM f s = .ok ys t) ↔ ∀ z ∈ zs, p z := by
  induction h with
  | nil => exact fun s => iff_of_true ⟨[], s, rfl⟩ (by simp)
  | cons hx _ ih =>
    intro s
    rw [List.forall_mem_cons, ← hx s, List.mapM_cons]
    constructor
    · rintro ⟨ys, t, hys⟩
      obtain ⟨y, u, hy, hys⟩ := run_bind_eq_ok.1 hys
      obtain ⟨rest, v, hrest, -⟩ := run_bind_eq_ok.1 hys
      exact ⟨⟨y, u, hy⟩, (ih u).1 ⟨rest, v, hrest⟩⟩
    · rintro ⟨⟨y, u, hy⟩, hzs⟩
      obtain ⟨rest, v, hrest⟩ := (ih u).2 hzs
      exact ⟨y :: rest, v, by rw [run_bind_of_ok hy, run_bind_of_ok hrest, run_pure_eq]⟩

/-- What each step keeps of the state and gives of its result, over a whole list. -/
theorem run_mapM_invariant {f : α → EStateM ε σ β} {I : σ → Prop} {R : α → β → Prop} {xs : List α}
    {ys : List β} {s t : σ} (hm : xs.mapM f s = .ok ys t) (hs : I s)
    (h : ∀ x ∈ xs, ∀ s y t, I s → f x s = .ok y t → I t ∧ R x y) :
    I t ∧ List.Forall₂ R xs ys := by
  induction xs generalizing ys s with
  | nil =>
    cases hm
    exact ⟨hs, .nil⟩
  | cons x xs ih =>
    rw [List.forall_mem_cons] at h
    rw [List.mapM_cons] at hm
    obtain ⟨y, u, hy, hm⟩ := run_bind_eq_ok.1 hm
    obtain ⟨rest, v, hrest, hm⟩ := run_bind_eq_ok.1 hm
    cases hm
    obtain ⟨hu, hR⟩ := h.1 s y u hs hy
    obtain ⟨ht, hRs⟩ := ih hrest hu h.2
    exact ⟨ht, .cons hR hRs⟩

/-- Where a computation done for each member of a list fails, it fails for a member. -/
theorem exists_of_run_mapM_error {f : α → EStateM ε σ β} {xs : List α} {s t : σ} {e : ε}
    (h : xs.mapM f s = .error e t) : ∃ x ∈ xs, ∃ s, f x s = .error e t := by
  induction xs generalizing s with
  | nil => cases h
  | cons x xs ih =>
    rw [List.mapM_cons] at h
    rcases run_bind_eq_error.1 h with hx | ⟨y, u, -, h⟩
    · exact ⟨x, List.mem_cons_self, s, hx⟩
    rcases run_bind_eq_error.1 h with hxs | ⟨ys, v, -, h⟩
    · obtain ⟨z, hz, he⟩ := ih hxs
      exact ⟨z, List.mem_cons_of_mem x hz, he⟩
    · cases h

/-- What is known of each result when a computation done for each member of a list succeeds. -/
theorem forall₂_of_run_mapM {f : α → EStateM ε σ β} {R : α → β → Prop} {xs : List α}
    {ys : List β} {s t : σ} (hm : xs.mapM f s = .ok ys t)
    (h : ∀ x ∈ xs, ∀ s y t, f x s = .ok y t → R x y) : List.Forall₂ R xs ys :=
  (run_mapM_invariant (I := fun _ => True) hm trivial
    fun x hx s y t _ hy => ⟨trivial, h x hx s y t hy⟩).2

end

end ActionBytecode
