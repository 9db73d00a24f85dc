import PacketCodec.Failure
import PacketCodec.Proofs.Except

namespace PacketCodec

-- Whether the fault comes with a report of the file system, which has a message
-- of its own.
def Fault.isReport : Fault → Bool
  | resourceNotFound (some _) => true
  | _ => false

namespace Failure

variable {e inner : Failure} {fault : Fault} {m label : Text}

-- A failure of the library that says a text and concerns no packet yet.
structure Says (e : Failure) (m : Text) : Prop where
  own : e.fault.isOwn = true
  unreported : e.fault.isReport = false
  args : e.args = [.text m]
  packet : e.packet = .null

-- A failure with a label in front of its message, and otherwise unchanged.
structure Labelled (inner e : Failure) (label : Text) : Prop where
  fault : e.fault = inner.fault
  fresh : inner.packet = .null
  message : e.message = Text.join [label, ": ", inner.message]

-- The failures of the library say a text. Nothing is said of the failures of the
-- layers below it.
def Worded (e : Failure) : Prop :=
  e.fault.isOwn = true → ∃ m, e.Says m

-- A failure of the library that says a text, or that could not be raised because
-- of a value that cannot be shown.
def SaysUnless (e : Failure) (unshown : Prop) : Prop :=
  (∃ m, e.Says m) ∨ e = unwritable ∧ unshown

theorem says_saying (hown : fault.isOwn = true) (hunreported : fault.isReport = false) (m : Text) :
    (saying fault m).Says m :=
  ⟨hown, hunreported, rfl, rfl⟩

theorem exists_says_typeValidation (message : Text) (field : Value) :
    ∃ m, (typeValidation (.text message) field).Says m := by
  unfold typeValidation
  by_cases hfield : field.truth = true
  · rw [if_pos hfield]
    exact ⟨_, rfl, rfl, rfl, rfl⟩
  · rw [if_neg hfield]
    exact ⟨message, rfl, rfl, rfl, rfl⟩

theorem message_of_own (hown : fault.isOwn = true) (hunreported : fault.isReport = false) (m : Text)
    (packet : Value) : message ⟨fault, [.text m], packet⟩ = m := by
  cases fault with
  | resourceNotFound report =>
      cases report with
      | none => rfl
      | some report => contradiction
  | badKey => contradiction
  | _ => rfl

theorem Says.message_eq (h : e.Says m) : e.message = m := by
  obtain ⟨fault, args, packet⟩ := e
  obtain rfl : args = [.text m] := h.args
  exact message_of_own h.own h.unreported m packet

theorem Says.annotate_eq (h : e.Says m) (label : Text) (packet : Value) :
    e.annotate (.text label) packet =
      ⟨e.fault, [.text (Text.join [label, ": ", m])], packet⟩ := by
  simp only [annotate, h.args, h.own, if_true]
  rfl

theorem Says.labelled (h : inner.Says m) (label : Text) (packet : Value) :
    Labelled inner (inner.annotate (.text label) packet) label := by
  rw [h.annotate_eq]
  refine ⟨rfl, h.packet, ?_⟩
  rw [message_of_own h.own h.unreported, h.message_eq]

theorem SaysUnless.mono {p q : Prop} (h : e.SaysUnless p) (hpq : p → q) : e.SaysUnless q :=
  h.imp_right fun ⟨he, hp⟩ => ⟨he, hpq hp⟩

theorem Says.showing (h : e.Says m) (values : List Value) :
    (showing values e).SaysUnless (values.all Value.isShowable = false) := by
  unfold Failure.showing
  cases hshowable : values.all Value.isShowable with
  | true => exact .inl ⟨m, h⟩
  | false => exact .inr ⟨rfl, rfl⟩

-- A label does not change what kind of failure it is.
theorem SaysUnless.fault_annotate {p : Prop} (h : e.SaysUnless p) (label : Text) (packet : Value) :
    (e.annotate (.text label) packet).fault.isOwn = true ∨
      (e.annotate (.text label) packet).fault = .badValue ∧ p := by
  rcases h with ⟨m, h⟩ | ⟨rfl, hp⟩
  · rw [h.annotate_eq]
    exact .inl h.own
  · exact .inr ⟨rfl, hp⟩

theorem isOwn_showing {values : List Value} (h : (showing values e).fault.isOwn = true) :
    e.fault.isOwn = true := by
  unfold showing at h
  split at h
  · exact h
  · contradiction

theorem isOwn_of_annotate {label packet : Value}
    (h : (e.annotate label packet).fault.isOwn = true) : e.fault.isOwn = true := by
  unfold annotate at h
  generalize (if e.fault.isOwn = true then packet else e.packet) = reported at h
  dsimp only at h
  split at h
  · exact h
  · have hown := isOwn_showing h
    exact hown

-- What fails under a label has failed inside, and only the label and the packet
-- are new.
theorem exists_labelled {α : Type} {outcome : Except Failure α} {packet : Value}
    (hworded : ∀ inner, outcome = .error inner → inner.Worded)
    (h : outcome.mapError (·.annotate (.text label) packet) = .error e)
    (hown : e.fault.isOwn = true) :
    ∃ inner, outcome = .error inner ∧ Labelled inner e label ∧ e.packet = packet := by
  obtain ⟨inner, hinner, rfl⟩ := mapError_eq_error_iff.mp h
  obtain ⟨m, htext⟩ := hworded inner hinner (isOwn_of_annotate hown)
  refine ⟨inner, hinner, htext.labelled label packet, ?_⟩
  rw [htext.annotate_eq]

theorem Worded.saying (hunreported : fault.isReport = false) (m : Text) :
    (Failure.saying fault m).Worded :=
  fun hown => ⟨m, hown, hunreported, rfl, rfl⟩

theorem Worded.showing (h : e.Worded) (values : List Value) : (showing values e).Worded := by
  intro hown
  unfold Failure.showing at hown ⊢
  split
  next hshowable =>
    rw [if_pos hshowable] at hown
    exact h hown
  next hshowable =>
    rw [if_neg hshowable] at hown
    contradiction

theorem Worded.of_below (h : e.fault.isOwn = false) : e.Worded := by
  intro hown
  rw [h] at hown
  contradiction

end Failure

end PacketCodec
