/-
  ActionBytecode — the bytes that a unit remembers.

  A unit that was not tampered with is written as the bytes that it remembers.  A `Session` follows
  a unit through a run of requests, and keeps beside it what was last read, or last written anew.

  `Session.untampered_run`: whatever the requests were and whichever of them failed, a unit that was
  not tampered with is just what that reading or writing left, and is written as the same bytes;
  and no unit counts as tampered with once it is written.
-/
import ActionBytecode.CodeUnit.Listing
import ActionBytecode.Proofs.Recovery

namespace ActionBytecode

/-! ## Sessions -/

/-- A unit that is worked on. -/
structure Session where
  unit : CodeUnit := .empty
  /-- The bytes that were last read, or last written anew, and the unit as it was then. -/
  last : Option (Bytes × CodeUnit) := none

/-- What can be done in a session. -/
inductive Request where
  /-- Go on with the unit that bytes stand for. -/
  | decode (bytes : Bytes)
  | listing (handle : MethodHandle)
  | apply (operation : Operation)

namespace Session

/-- The session after the unit is written. -/
def encode (s : Session) (options : EncodeOptions) : Session :=
  match Edit.encode options s.unit with
  | .ok bytes later =>
    if s.unit.isTampered then ⟨later, some (bytes, later)⟩ else { s with unit := later }
  | .error _ later => { s with unit := later }

/-- The session after a request, which may have failed. -/
def step (s : Session) : Request → Session
  | .decode bytes =>
    match CodeUnit.decode bytes with
    | .ok unit => ⟨unit, some (bytes, unit)⟩
    | .error _ => s
  | .listing handle => { s with unit := (Edit.listing handle).after s.unit }
  | .apply (.encode options) => s.encode options
  | .apply operation => { s with unit := operation.run s.unit }

/-- The session after a run of requests, from the empty unit on. -/
def run (requests : List Request) : Session := requests.foldl step {}

end Session

namespace Edit

theorem keeps_listing (handle : MethodHandle) : Keeps (listing handle) :=
  (keeps_disassembleMethod handle).bind fun _ => (keeps_requireMethod handle).bind fun _ =>
    keeps_ofExcept _

end Edit

/-! ## Coherence -/

namespace Session

/-- Bytes that the unit remembers are those that were last read or written, and it was not edited
    since. -/
structure Coherent (s : Session) : Prop where
  ordered : s.unit.Ordered
  last : ∀ bytes, s.unit.written = some bytes →
    ∃ left, s.last = some (bytes, left) ∧ Kept left s.unit

variable {s : Session}

theorem coherent_start : Coherent {} := ⟨CodeUnit.ordered_empty, nofun⟩

theorem Coherent.kept (h : s.Coherent) {later : CodeUnit} (hk : Kept s.unit later) :
    Coherent { s with unit := later } where
  ordered := h.ordered.kept hk
  last bytes hw := by
    have hu : Unedited s.unit later := hk.bytes.resolve_left fun hn => by simp [hn] at hw
    obtain ⟨left, hl, hleft⟩ := h.last bytes (hu.written.symm.trans hw)
    exact ⟨left, hl, hleft.trans hk⟩

/-- Once the bytes are forgotten, nothing is claimed of them. -/
theorem coherent_of_forgotten {later : CodeUnit} (ho : later.Ordered) (hw : later.written = none) :
    Coherent { s with unit := later } :=
  ⟨ho, fun bytes hb => by cases hw.symm.trans hb⟩

theorem coherent_of_written {unit : CodeUnit} {bytes : Bytes} (ho : unit.Ordered)
    (hw : unit.written = some bytes) : Coherent ⟨unit, some (bytes, unit)⟩ :=
  ⟨ho, fun other hb => by cases hw.symm.trans hb; exact ⟨unit, rfl, Kept.refl unit⟩⟩

theorem Coherent.encode (h : s.Coherent) (options : EncodeOptions) :
    (s.encode options).Coherent := by
  have hcases := Edit.encode_cases options s.unit
  rw [Session.encode]
  cases he : Edit.encode options s.unit with
  | error fault later =>
    rw [Edit.after, he] at hcases
    rcases hcases with hk | ⟨plain, rebuilt, hok, -⟩
    · exact h.kept hk
    · cases hok
  | ok bytes later =>
    dsimp only
    rcases Edit.encode_eq_ok.1 he with ⟨hc, rfl⟩ | ⟨hc, plain, rebuilt, hd, hr, rfl, rfl⟩
    -- the bytes are those that the unit had, so the session keeps what it holds
    · have ht : ¬ s.unit.isTampered = true := by
        rw [← CodeUnit.current?_eq_none, hc]
        exact Option.some_ne_none bytes
      rw [if_neg ht]
      exact h.kept (Kept.refl _)
    · have hk := Edit.keeps_disassemble.of_ok hd
      rw [if_pos (CodeUnit.current?_eq_none.1 hc)]
      exact coherent_of_written ((h.ordered.kept hk).commit hr) rfl

theorem Coherent.apply (h : s.Coherent) {operation : Operation}
    (hne : ∀ options, operation ≠ .encode options) :
    Coherent { s with unit := operation.run s.unit } := by
  rcases operation.run_cases s.unit with hk | hj | hj | ⟨options, _, _, rfl, -⟩
  · exact h.kept hk
  · exact coherent_of_forgotten (h.ordered.methodJoins hj) hj.written
  · exact coherent_of_forgotten (h.ordered.classJoins hj) hj.written
  · exact absurd rfl (hne options)

/-- **Each request leaves a session coherent.** -/
theorem Coherent.step (h : s.Coherent) (request : Request) : (s.step request).Coherent := by
  cases request with
  | decode bytes =>
    rw [Session.step]
    cases hd : CodeUnit.decode bytes with
    | error fault => exact h
    | ok unit =>
      obtain ⟨_, _, examined, -, -, rfl⟩ := CodeUnit.decode_eq_ok.1 hd
      exact coherent_of_written (CodeUnit.ordered_of_decode hd) rfl
  | listing handle => exact h.kept (Edit.keeps_listing handle s.unit)
  | apply operation =>
    cases operation with
    | encode options => exact h.encode options
    | _ => exact h.apply nofun

theorem coherent_run (requests : List Request) : (run requests).Coherent := by
  have key (requests : List Request) : ∀ s : Session, s.Coherent →
      (requests.foldl Session.step s).Coherent := by
    induction requests with
    | nil => exact fun _ h => h
    | cons request requests ih => exact fun s h => ih _ (h.step request)
  exact key requests {} coherent_start

/-- A unit that was not edited is what it was, unless methods were disassembled. -/
theorem methods_of_unedited {unit later : CodeUnit} (h : Unedited unit later)
    (hraw : ∀ method ∈ later.methods, method.isSymbolic = false) :
    later.methods = unit.methods := by
  refine Array.ext_getElem? fun i => ?_
  rcases h.methods i with hi | ⟨method, hi, hs⟩
  · exact hi
  · cases hs.symm.trans (hraw method (Array.mem_of_getElem? hi))

/-- **While a unit is not tampered with, it is what was last read or written anew, and is written
    as those bytes whatever the options; and it is not tampered with once it is written.** -/
theorem untampered_run (requests : List Request) :
    ((run requests).unit.isTampered = false → ∃ bytes left,
      (run requests).last = some (bytes, left) ∧
      (run requests).unit.written = some bytes ∧
      (∀ method ∈ (run requests).unit.methods, method.isSymbolic = false) ∧
      (run requests).unit.methods = left.methods ∧
      (run requests).unit.classes = left.classes ∧
      (run requests).unit.scripts = left.scripts ∧
      (run requests).unit.metadata = left.metadata ∧
      (run requests).unit.methodOrder = left.methodOrder ∧
      (run requests).unit.classOrder = left.classOrder ∧
      ∀ options, Edit.encode options (run requests).unit = .ok bytes (run requests).unit) ∧
    ∀ options bytes later, Edit.encode options (run requests).unit = .ok bytes later →
      later.isTampered = false := by
  have hs := coherent_run requests
  generalize run requests = s at hs ⊢
  refine ⟨fun ht => ?_, fun options bytes later he => Edit.isTampered_encode hs.ordered he⟩
  obtain ⟨⟨bytes, hw⟩, hraw⟩ := CodeUnit.isTampered_eq_false.1 ht
  obtain ⟨left, hl, hk⟩ := hs.last bytes hw
  have hu : Unedited left s.unit := hk.bytes.resolve_left fun hn => by simp [hn] at hw
  have hcurrent : s.unit.current? = some bytes := by
    rw [CodeUnit.current?, ht, hw]
    rfl
  exact ⟨bytes, left, hl, hw, hraw, methods_of_unedited hu hraw, hu.classes, hu.scripts,
    hu.metadata, hk.methodOrder, hk.classOrder, fun _ => Edit.encode_of_current hcurrent⟩

/-! A method is written, and then a constant joins, a missing method is asked for and bytes are
given that cannot be read. -/

def savedRequests : List Request :=
  [.apply (.createMethod { body := some { code := switchCode } }), .apply (.encode {}),
    .apply (.createNamespace .package "p"), .listing ⟨1⟩, .decode [0]]

theorem untampered_savedRequests : (run savedRequests).unit.isTampered = false ∧
    ∃ bytes left, (run savedRequests).last = some (bytes, left) ∧
      (run savedRequests).unit.methods = left.methods ∧
      ∀ options, Edit.encode options (run savedRequests).unit =
        .ok bytes (run savedRequests).unit := by
  have ht : (run savedRequests).unit.isTampered = false := by decide
  obtain ⟨bytes, left, hl, -, -, hm, -, -, -, -, -, he⟩ := (untampered_run savedRequests).1 ht
  exact ⟨ht, bytes, left, hl, hm, he⟩

end Session

end ActionBytecode
