import PacketCodec.Proofs.Layout.Reading
import PacketCodec.Proofs.Layout.Resolves
import PacketCodec.Proofs.Wire.Guarded
import PacketCodec.Proofs.Wire.Truncated

namespace PacketCodec

namespace Layout

section Guarded

-- Reading with every access to the buffer checked, as for single fields.
def readEachGuarded (read : Nat → Except ReadFault (Value × Nat)) :
    (count pos : Nat) → List Value → Except ReadFault (List Value × Nat)
  | 0, pos, before => .ok (before.reverse, pos)
  | count + 1, pos, before =>
    match read pos with
    | .error fault => .error fault
    | .ok (value, pos) => readEachGuarded read count pos (value :: before)

def readGuarded (buffer : Bytes) : Layout → (pos : Nat) →
    Except ReadFault (List (Text × Value) × Nat)
  | nil, pos => .ok ([], pos)
  | scalar name _ wire rest, pos => do
    let (value, pos) ← wire.readGuarded buffer pos
    let (others, pos) ← rest.readGuarded buffer pos
    return ((name, value) :: others, pos)
  | object name members rest, pos => do
    let (inner, pos) ← members.readGuarded buffer pos
    let (others, pos) ← rest.readGuarded buffer pos
    return ((name, .record inner) :: others, pos)
  | array name _ element rest, pos => do
    let (count, pos) ← buffer.takeGuarded pos 2
    let (items, pos) ←
      readEachGuarded
        (fun pos => (element.readGuarded buffer pos).map fun (inner, pos) => (.record inner, pos))
        (LittleEndian.decode count) pos []
    let (others, pos) ← rest.readGuarded buffer pos
    return ((name, .list items) :: others, pos)

theorem readEachGuarded_eq {read : Nat → Except Truncation (Value × Nat)} (count pos : Nat)
    (before : List Value) :
    readEachGuarded (fun pos => (read pos).mapError .truncated) count pos before =
      (readEach read count pos before).mapError .truncated := by
  induction count generalizing pos before with
  | zero => rfl
  | succ count ih =>
      rw [readEachGuarded, readEach]
      cases read pos with
      | error t => rfl
      | ok result => exact ih _ _

-- No check ever fails, so that both read the same.
theorem readGuarded_eq (layout : Layout) (buffer : Bytes) (pos : Nat) :
    layout.readGuarded buffer pos = (layout.read buffer pos).mapError .truncated := by
  induction layout generalizing pos with
  | nil => rfl
  | scalar name type wire rest ih =>
      simp only [readGuarded, read, mapError_bind, wire.readGuarded_eq, ih]
      rfl
  | object name members rest ihmembers ih =>
      simp only [readGuarded, read, mapError_bind, ihmembers, ih]
      rfl
  | array name count element rest ihelement ih =>
      simp only [readGuarded, read, mapError_bind, Bytes.takeGuarded_eq, ihelement, ← mapError_map,
        readEachGuarded_eq, ih]
      rfl

end Guarded

variable {types : TypeSet} {fields : FieldList} {layout : Layout} {before : List Text}
  {b : Bytes} {pos : Nat} {t : Truncation}

theorem sound_of_readEach {read : Reader Value} {spells : List UInt8 → Value → Prop}
    (hreads : Reads read spells) (hsound : ∀ pos, read b pos = .error t → t.Sound b pos)
    (count : Nat) (before : List Value) (h : readEach (read b) count pos before = .error t) :
    t.Sound b pos := by
  induction count generalizing pos before with
  | zero => contradiction
  | succ count ih =>
      rw [readEach] at h
      cases hread : read b pos with
      | error t' =>
          rw [hread] at h
          cases h
          exact hsound pos hread
      | ok result =>
          rw [hread] at h
          exact (ih _ h).after hreads hread

theorem read_scalar_eq_error {name type : Text} {wire : WireType} {rest : Layout}
    (h : (scalar name type wire rest).read b pos = .error t) :
    wire.read b pos = .error t ∨
      ∃ value stop, wire.read b pos = .ok (value, stop) ∧ rest.read b stop = .error t := by
  simpa [read, bind_eq_error_iff, pure, Except.pure] using h

theorem read_object_eq_error {name : Text} {members rest : Layout}
    (h : (object name members rest).read b pos = .error t) :
    members.read b pos = .error t ∨
      ∃ inner stop, members.read b pos = .ok (inner, stop) ∧ rest.read b stop = .error t := by
  simpa [read, bind_eq_error_iff, pure, Except.pure] using h

-- The elements of an array, each as a record.
def readItem (element : Layout) : Reader Value :=
  fun b pos => (element.read b pos).map fun (inner, stop) => (.record inner, stop)

theorem read_array_eq_error {name count : Text} {element rest : Layout}
    (h : (array name count element rest).read b pos = .error t) :
    Bytes.take b pos 2 = .error t ∨
      ∃ bytes start, Bytes.take b pos 2 = .ok (bytes, start) ∧
        (readEach (element.readItem b) (LittleEndian.decode bytes) start [] = .error t ∨
          ∃ items stop, readEach (element.readItem b) (LittleEndian.decode bytes) start [] =
            .ok (items, stop) ∧ rest.read b stop = .error t) := by
  simp only [read, bind_eq_error_iff, Prod.exists, pure, Except.pure, reduceCtorEq, and_false,
    exists_const, or_false] at h
  exact h

-- Wherever reading stops, the numbers are as they should be.
theorem sound_of_read (hset : types.types = WireType.builtin)
    (hresolves : Resolves types before fields layout) (h : layout.read b pos = .error t) :
    t.Sound b pos := by
  induction hresolves generalizing pos with
  | nil => contradiction
  | leaf _ _ hwire _ ih | empty _ _ hwire _ ih =>
      obtain ⟨hstandard, -⟩ := TypeSet.standard_of_find? hset hwire
      rcases read_scalar_eq_error h with h | ⟨value, stop, hread, h⟩
      · exact WireType.sound_of_read hstandard (TypeSet.width_of_find? hset hwire) h
      · exact (ih h).after (WireType.reads _) hread
  | @object _ _ _ _ inner _ _ _ _ _ ihmembers ih =>
      rcases read_object_eq_error h with h | ⟨entries, stop, hread, h⟩
      · exact ihmembers h
      · exact (ih h).after inner.reads hread
  | @array _ _ _ _ _ element _ _ _ _ _ ihmembers ih =>
      have hitem := element.reads.map Value.record
      rcases read_array_eq_error h with h | ⟨bytes, start, htake, h | ⟨items, stop, hread, h⟩⟩
      · exact Bytes.sound_of_take (by decide) (by decide) h
      · have hsound := sound_of_readEach hitem (fun _ h => ihmembers (map_eq_error_iff.mp h)) _ _ h
        exact hsound.after (Bytes.reads_take 2) htake
      · have hsound := (ih h).after (reads_readEach hitem _ _) hread
        exact hsound.after (Bytes.reads_take 2) htake

-- Beyond the end of the buffer reading fails as the first thing on the wire does.
theorem read_beyond (hset : types.types = WireType.builtin)
    (hresolves : Resolves types before fields layout) (hsome : fields.isEmpty = false)
    (hpos : b.size < pos) (path : Text) :
    ∃ row rows wire t, layout.rows path = row :: rows ∧ types.find? row.2 = some wire ∧
      layout.read b pos = .error t ∧ wire.read b pos = .error t := by
  induction hresolves generalizing path with
  | nil => contradiction
  | leaf _ _ hwire _ _ | empty _ _ hwire _ _ =>
      obtain ⟨t, ht⟩ := WireType.exists_read_error (TypeSet.standard_of_find? hset hwire).1 hpos
      refine ⟨_, _, _, t, rfl, hwire, ?_, ht⟩
      rw [read, ht, error_bind]
  | @object _ name _ _ _ others _ hmembers _ _ ihmembers _ =>
      obtain ⟨row, rows, wire, t, hrows, hwire, hread, ht⟩ := ihmembers hmembers (member path name)
      refine ⟨row, rows ++ others.rows path, wire, t, ?_, hwire, ?_, ht⟩
      · rw [Layout.rows, hrows, List.cons_append]
      · rw [read, hread, error_bind]
  | array _ _ _ _ _ _ =>
      obtain ⟨t, ht⟩ := WireType.exists_read_error (.whole false 2 (by decide)) hpos
      have htake : Bytes.take b pos 2 = .error t := map_eq_error_iff.mp ht
      refine ⟨_, _, .number (.integer false 2), t, rfl, ?_, ?_, ht⟩
      · rw [TypeSet.find?, hset]
        rfl
      · rw [read, htake, error_bind]

end Layout

end PacketCodec
