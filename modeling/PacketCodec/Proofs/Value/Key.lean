import PacketCodec.Value.Key

namespace PacketCodec

namespace Value

variable {value other key : Value}

theorem alike_iff : value.alike other = true ↔
    ∃ parts, value.keyParts? = some parts ∧ other.keyParts? = some parts := by
  unfold alike
  cases value.keyParts? with
  | none => simp
  | some parts =>
      cases other.keyParts? with
      | none => simp
      | some others => simp [eq_comm]

theorem same_iff : value.same other = true ↔ value.alike other = true ∧ value.holdsNaN = false := by
  simp [same]

theorem alike_of_same (h : value.same other = true) : value.alike other = true :=
  (same_iff.mp h).1

theorem keyParts?_eq_of_alike (h : value.alike other = true) :
    value.keyParts? = other.keyParts? := by
  obtain ⟨parts, hvalue, hother⟩ := alike_iff.mp h
  rw [hvalue, hother]

theorem alike_symm (h : value.alike other = true) : other.alike value = true := by
  obtain ⟨parts, hvalue, hother⟩ := alike_iff.mp h
  exact alike_iff.mpr ⟨parts, hother, hvalue⟩

-- Keys that are alike cannot be told apart by comparing them with others.
theorem alike_congr (h : value.alike other = true) (key : Value) :
    key.alike value = key.alike other ∧ key.same value = key.same other := by
  have hparts := keyParts?_eq_of_alike h
  have halike : key.alike value = key.alike other := by unfold alike; rw [hparts]
  exact ⟨halike, by unfold same; rw [halike]⟩

theorem alike_of_same_same (h : value.same key = true) (h' : other.same key = true) :
    value.alike other = true := by
  rw [(alike_congr (alike_of_same h') value).1]
  exact alike_of_same h

theorem holdsNaN_eq_of_alike (h : value.alike other = true) : value.holdsNaN = other.holdsNaN := by
  unfold holdsNaN
  rw [keyParts?_eq_of_alike h]

-- A key is taken as it is.
theorem key_cases (value : Value) : value.key = .ok value ∨ ∃ e, value.key = .error e := by
  unfold key
  cases value.keyFault? with
  | none => exact .inl rfl
  | some e => exact .inr ⟨e, rfl⟩

section Text

variable {t : Text}

theorem keyParts?_eq_text_iff : value.keyParts? = some [.text t] ↔ value = .text t := by
  cases value with
  | double x =>
      simp only [keyParts?]
      split
      · simp
      · cases x.toInt? <;> simp
  | tuple items => cases h : keyPartsOf? items <;> simp [keyParts?, h]
  | _ => simp [keyParts?]

theorem holdsNaN_text : (text t).holdsNaN = false := by
  simp [holdsNaN, keyParts?]

theorem same_text_iff : value.same (.text t) = true ↔ value = .text t := by
  rw [same_iff, alike_iff]
  constructor
  · rintro ⟨⟨parts, hvalue, htext⟩, -⟩
    obtain rfl : [KeyPart.text t] = parts := by simpa [keyParts?] using htext
    exact keyParts?_eq_text_iff.mp hvalue
  · rintro rfl
    exact ⟨⟨[.text t], rfl, rfl⟩, holdsNaN_text⟩

theorem same_texts_iff {u : Text} : (text t).same (.text u) = true ↔ t = u := by
  rw [same_text_iff, text.injEq]

theorem alike_text_iff {u : Text} : (text t).alike (.text u) = true ↔ t = u := by
  rw [alike_iff]
  simp [keyParts?, eq_comm]

theorem key_text : (text t).key = .ok (.text t) := rfl

end Text

section Whole

variable {n : Int}

theorem keyParts?_of_integer? (h : value.integer? = some n) :
    value.keyParts? = some [.whole n] := by
  cases value with
  | bool b => simpa [integer?, keyParts?] using h
  | int m => simpa [integer?, keyParts?] using h
  | _ => contradiction

theorem holdsNaN_of_integer? (h : value.integer? = some n) : value.holdsNaN = false := by
  simp [holdsNaN, keyParts?_of_integer? h]

theorem alike_of_integer? (h : value.integer? = some n) (hother : other.integer? = some n) :
    value.alike other = true :=
  alike_iff.mpr ⟨[.whole n], keyParts?_of_integer? h, keyParts?_of_integer? hother⟩

theorem eq_of_alike_of_integer? {m : Int} (h : value.alike other = true)
    (hvalue : value.integer? = some m) (hother : other.integer? = some n) : m = n := by
  have hparts := keyParts?_eq_of_alike h
  rw [keyParts?_of_integer? hvalue, keyParts?_of_integer? hother] at hparts
  simpa using hparts

theorem alike_int_iff {m : Int} : (int n).alike (.int m) = true ↔ n = m := by
  rw [alike_iff]
  simp [keyParts?, eq_comm]

theorem same_int_iff {m : Int} : (int n).same (.int m) = true ↔ n = m := by
  rw [same_iff, alike_int_iff]
  exact and_iff_left (holdsNaN_of_integer? rfl)

theorem key_of_integer? (h : value.integer? = some n) : value.key = .ok value := by
  cases value with
  | bool b => rfl
  | int m => rfl
  | _ => contradiction

end Whole

end Value

end PacketCodec
