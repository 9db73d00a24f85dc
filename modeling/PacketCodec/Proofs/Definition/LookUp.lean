import PacketCodec.Definition.Table
import PacketCodec.Proofs.Failure
import PacketCodec.Proofs.Value.Keyed
import PacketCodec.Proofs.Value.Order

namespace PacketCodec

namespace DefinitionTable

-- Every version is a whole number.
def Whole (table : DefinitionTable) : Prop :=
  ∀ packet ∈ table.packets, ∀ entry ∈ packet.2, (entry.1.integer?).isSome = true

variable {table : DefinitionTable} {name version : Value} {fields : FieldList}
  {find : Keyed FieldList → Value → Option FieldList} {n : Int}

theorem lookUp_of_keys (hname : name.key = .ok name) (hversion : version.key = .ok version) :
    table.lookUp find name version =
      match table.packets.get? name with
      | none => .error (.noPacket name)
      | some versions =>
        match find versions version with
        | none => .error (.noVersion name version)
        | some fields => .ok fields := by
  unfold lookUp
  rw [hname, hversion, mapError_ok, ok_bind, mapError_ok]
  cases table.packets.get? name <;> rfl

theorem get_eq_ok_iff : table.get name version = .ok fields ↔
    name.key = .ok name ∧ version.key = .ok version ∧
      ∃ versions, table.packets.get? name = some versions ∧
        versions.get? version = some fields := by
  rcases name.key_cases with hname | ⟨_, hname⟩
  · rcases version.key_cases with hversion | ⟨_, hversion⟩
    · rw [get, lookUp_of_keys hname hversion]
      cases table.packets.get? name with
      | none => simp
      | some versions => cases hfound : versions.get? version <;> simp [hname, hversion, hfound]
    · cases hpacket : table.packets.get? name <;>
        simp [get, lookUp, hname, hpacket, hversion, mapError_ok, mapError_error, ok_bind,
          error_bind]
  · simp [get, lookUp, hname, mapError_error, error_bind]

-- Alike names and versions have the same definition.
theorem get_congr {name' version' : Value} (hname : name'.alike name = true)
    (hversion : version'.alike version = true) (hnamekey : name.key = .ok name)
    (hversionkey : version.key = .ok version) (h : table.get name' version' = .ok fields) :
    table.get name version = .ok fields := by
  obtain ⟨-, -, versions, hpacket, hfound⟩ := get_eq_ok_iff.mp h
  rw [Keyed.get?_congr _ hname] at hpacket
  rw [Keyed.get?_congr _ hversion] at hfound
  exact get_eq_ok_iff.mpr ⟨hnamekey, hversionkey, versions, hpacket, hfound⟩

theorem getOwn_eq_get (hname : name.key = .ok name) (hversion : version.integer? = some n) :
    table.getOwn name version = table.get name version := by
  have hkey := Value.key_of_integer? hversion
  have hnumber := Value.holdsNaN_of_integer? hversion
  rw [getOwn, get, lookUp_of_keys hname hkey, lookUp_of_keys hname hkey]
  simp only [Keyed.getOwn?_eq_get? _ hnumber]

-- A version that is asked for in vain is shown.
theorem saysUnless_of_get_error {e : LookUpError} (hname : name.key = .ok name)
    (hversion : version.key = .ok version) (h : table.get name version = .error e) :
    e.failure.SaysUnless (version.isShowable = false) := by
  rw [get, lookUp_of_keys hname hversion] at h
  split at h
  · cases h
    exact .inl ⟨_, Failure.says_saying rfl rfl _⟩
  · split at h
    · cases h
      exact ((Failure.says_saying rfl rfl _).showing _).mono (by simp)
    · contradiction

section EachVersion

-- A property that every version in a table has.
def EachVersion (p : Value → Prop) (table : DefinitionTable) : Prop :=
  ∀ packet ∈ table.packets, ∀ entry ∈ packet.2, p entry.1

variable {p : Value → Prop}

theorem EachVersion.packet (h : table.EachVersion p) (name : Value) :
    ∀ entry ∈ table.packet name, p entry.1 := by
  intro entry hentry
  unfold DefinitionTable.packet at hentry
  cases hpacket : table.packets.get? name with
  | none =>
      rw [hpacket] at hentry
      contradiction
  | some versions =>
      rw [hpacket] at hentry
      obtain ⟨own, hown⟩ := Keyed.mem_of_get? hpacket
      exact h _ hown entry hentry

theorem EachVersion.withPacket (h : table.EachVersion p) (name : Value)
    {versions : Keyed FieldList} (hversions : ∀ entry ∈ versions, p entry.1) :
    (table.withPacket name versions).EachVersion p := by
  intro packet hpacket
  rcases (Keyed.mem_put hpacket).2 with hpacket | hsame
  · exact h packet hpacket
  · rw [hsame]
    exact hversions

-- A definition that is added has a version of the kind that the others have.
theorem EachVersion.add (h : table.EachVersion p) (name : Value) (hversion : p version)
    (fields : FieldList) : (table.add name version fields).2.EachVersion p := by
  unfold DefinitionTable.add
  split
  · exact h
  · rcases name.key_cases with hname | ⟨e, hname⟩
    · rw [hname]
      rcases version.key_cases with hkey | ⟨e, hkey⟩
      · rw [hkey]
        refine h.withPacket name fun entry hentry => ?_
        rcases (Keyed.mem_put hentry).1 with hown | ⟨other, hother, hown⟩
        · rw [hown]
          exact hversion
        · rw [hown]
          exact h.packet name other hother
      · rw [hkey]
        exact h.withPacket name (h.packet name)
    · rw [hname]
      exact h

theorem EachVersion.addText (h : table.EachVersion p) (name : Value) (hversion : p version)
    (t : Text) : (table.addText name version t).2.EachVersion p := by
  unfold DefinitionTable.addText
  split
  · exact h
  · cases Definition.ofText t with
    | ok fields => exact h.add name hversion fields
    | error e => exact h

end EachVersion

theorem whole_iff_eachVersion :
    table.Whole ↔ table.EachVersion fun version => (version.integer?).isSome = true :=
  Iff.rfl

theorem Whole.packet (h : table.Whole) (name : Value) :
    ∀ entry ∈ table.packet name, (entry.1.integer?).isSome = true :=
  (whole_iff_eachVersion.mp h).packet name

-- Definitions that are added under whole numbers keep the versions whole.

theorem Whole.add (h : table.Whole) (name : Value) (version : Int) (fields : FieldList) :
    (table.add name (.int version) fields).2.Whole :=
  (whole_iff_eachVersion.mp h).add name rfl fields

theorem Whole.addText (h : table.Whole) (name : Value) (version : Int) (t : Text) :
    (table.addText name (.int version) t).2.Whole :=
  (whole_iff_eachVersion.mp h).addText name rfl t

-- Every version of a packet has a definition.
theorem exists_get_of_mem_keys (htable : table.Whole) (hname : name.key = .ok name)
    (hmem : version ∈ (table.packet name).keys) :
    ∃ fields, table.get name version = .ok fields := by
  obtain ⟨entry, hentry, rfl⟩ := List.mem_map.mp hmem
  obtain ⟨n, hn⟩ := Option.isSome_iff_exists.mp (htable.packet name entry hentry)
  have hself : entry.1.same entry.1 = true :=
    Value.same_iff.mpr ⟨Value.alike_of_integer? hn hn, Value.holdsNaN_of_integer? hn⟩
  unfold DefinitionTable.packet at hentry
  cases hpacket : table.packets.get? name with
  | none =>
      rw [hpacket] at hentry
      contradiction
  | some versions =>
      rw [hpacket] at hentry
      have hfound := Keyed.isSome_get?.trans (Keyed.contains_iff.mpr ⟨entry, hentry, hself⟩)
      obtain ⟨fields, hfields⟩ := Option.isSome_iff_exists.mp hfound
      exact ⟨fields, get_eq_ok_iff.mpr
        ⟨hname, Value.key_of_integer? hn, versions, hpacket, hfields⟩⟩

-- The highest version of a packet is found, and is one of its versions.
theorem latest_cases (htable : table.Whole) (hname : name.key = .ok name) :
    table.latest name = .error (.noPacket name) ∨
      ∃ version ∈ (table.packet name).keys, table.latest name = .ok version ∧
        (version.integer?).isSome = true := by
  have hwhole : ∀ version ∈ (table.packet name).keys, (version.integer?).isSome = true := by
    intro version hversion
    obtain ⟨entry, hentry, rfl⟩ := List.mem_map.mp hversion
    exact htable.packet name entry hentry
  unfold latest
  rw [hname, mapError_ok, ok_bind]
  cases hkeys : (table.packet name).keys with
  | nil => exact .inl rfl
  | cons version rest =>
      rw [hkeys] at hwhole
      obtain ⟨hfirst, hrest⟩ := List.forall_mem_cons.mp hwhole
      obtain ⟨found, hfound, hmem⟩ := Value.exists_greatest hfirst hrest
      exact .inr ⟨found, hmem, by simp only [hfound, mapError_ok], hwhole found hmem⟩

end DefinitionTable

end PacketCodec
