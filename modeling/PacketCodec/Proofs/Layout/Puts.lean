import PacketCodec.Proofs.Layout.Format
import PacketCodec.Proofs.Layout.Measuring
import PacketCodec.Proofs.Layout.Resolves
import PacketCodec.Proofs.Wire.Writing

-- Measuring and writing a record go over the same list of single fields. Each
-- of them is put at the place where the one before it ended, so that the
-- position and the sizes that are left always add up to the size of the buffer.

namespace PacketCodec

-- A value that is put on the wire, and the field that it is put there for.
structure Put where
  wire : WireType
  value : Value
  field : Value

namespace Put

def encoding (put : Put) : List UInt8 :=
  put.wire.encoding put.value

def write (cursor : WriteCursor) (put : Put) : Except WriteFault WriteCursor :=
  put.wire.write cursor put.value put.field

-- The sum of the sizes.
def measureAll : List Put → Except Misfit Nat
  | [] => .ok 0
  | put :: rest => do
    let size ← put.wire.measure put.value put.field
    return size + (← measureAll rest)

end Put

namespace Layout

-- The fields of elements, the first of which has the index `i`.
def putsEach (puts : Value → Text → List Put) (path : Text) : List Value → (i : Nat) → List Put
  | [], _ => []
  | item :: rest, i => puts item (element path i) ++ putsEach puts path rest (i + 1)

-- All that is put on the wire for a record, in wire order.
def puts : Layout → (entries : List (Text × Value)) → (path : Text) → List Put
  | nil, _, _ => []
  | scalar name _ wire rest, entries, path =>
    ⟨wire, lookUp entries name, .text (member path name)⟩ :: rest.puts entries path
  | object name members rest, entries, path =>
    members.puts (lookUp entries name).entries (member path name) ++ rest.puts entries path
  | array name _ element rest, entries, path =>
    let items := (lookUp entries name).items
    ⟨.number countType, .int items.length, .text (member path name)⟩ ::
      (putsEach (fun item path => element.puts item.entries path) (member path name) items 0 ++
        rest.puts entries path)

end Layout

namespace Put

variable {n : Nat}

theorem measureAll_cons_eq_ok_iff {put : Put} {rest : List Put} :
    measureAll (put :: rest) = .ok n ↔
      ∃ size others, put.wire.measure put.value put.field = .ok size ∧
        measureAll rest = .ok others ∧ n = size + others := by
  simp only [measureAll, bind_eq_ok_iff, pure, Except.pure, Except.ok.injEq, exists_and_left,
    @eq_comm _ _ n]

theorem measureAll_append_eq_ok_iff {first second : List Put} :
    measureAll (first ++ second) = .ok n ↔
      ∃ size others, measureAll first = .ok size ∧ measureAll second = .ok others ∧
        n = size + others := by
  induction first generalizing n with
  | nil =>
      constructor
      · intro h
        exact ⟨0, n, rfl, h, (Nat.zero_add n).symm⟩
      · rintro ⟨_, others, h, hsecond, rfl⟩
        cases h
        rw [Nat.zero_add]
        exact hsecond
  | cons put first ih =>
      rw [List.cons_append, measureAll_cons_eq_ok_iff]
      constructor
      · rintro ⟨size, _, hput, hothers, rfl⟩
        obtain ⟨more, others, hfirst, hsecond, rfl⟩ := ih.mp hothers
        refine ⟨size + more, others, ?_, hsecond, (Nat.add_assoc _ _ _).symm⟩
        exact measureAll_cons_eq_ok_iff.mpr ⟨size, more, hput, hfirst, rfl⟩
      · rintro ⟨_, others, hsizes, hsecond, rfl⟩
        obtain ⟨size, more, hput, hfirst, rfl⟩ := measureAll_cons_eq_ok_iff.mp hsizes
        exact ⟨size, more + others, hput, ih.mpr ⟨more, others, hfirst, hsecond, rfl⟩,
          Nat.add_assoc _ _ _⟩

theorem length_encoding {puts : List Put} (hputs : ∀ put ∈ puts, put.wire.Standard)
    (h : measureAll puts = .ok n) : (puts.flatMap encoding).length = n := by
  induction puts generalizing n with
  | nil =>
      cases h
      rfl
  | cons put rest ih =>
      rw [List.forall_mem_cons] at hputs
      obtain ⟨size, others, hsize, hothers, rfl⟩ := measureAll_cons_eq_ok_iff.mp h
      rw [List.flatMap_cons, List.length_append, ih hputs.2 hothers, encoding,
        WireType.length_encoding hputs.1 hsize]

-- The fields that are left fill the buffer behind the cursor.
def Balanced (cursor : WriteCursor) (todo : List Put) : Prop :=
  ∃ left, measureAll todo = .ok left ∧ cursor.pos + left = cursor.buffer.size

-- One field: its bytes are put into their room, and the rest stays balanced.
theorem Balanced.write {cursor : WriteCursor} {put : Put} {todo : List Put}
    (hput : put.wire.Standard) (h : Balanced cursor (put :: todo)) :
    Put.write cursor put = .ok (cursor.put put.encoding) ∧
      (cursor.put put.encoding).buffer.size = cursor.buffer.size ∧
      Balanced (cursor.put put.encoding) todo := by
  obtain ⟨left, hleft, hsize⟩ := h
  obtain ⟨size, others, hput', hothers, rfl⟩ := measureAll_cons_eq_ok_iff.mp hleft
  have hlen : put.encoding.length = size := WireType.length_encoding hput hput'
  have hkeep := cursor.size_put put.encoding (by omega)
  refine ⟨WireType.write_eq_put hput hput' cursor (by omega), hkeep, others, hothers, ?_⟩
  rw [WriteCursor.pos_put, hkeep]
  omega

-- All fields of a balanced rest, and any number of the first ones.
theorem Balanced.foldlM_write {cursor : WriteCursor} {done todo : List Put}
    (hputs : ∀ put ∈ done, put.wire.Standard) (h : Balanced cursor (done ++ todo)) :
    done.foldlM Put.write cursor = .ok (cursor.put (done.flatMap encoding)) ∧
      (cursor.put (done.flatMap encoding)).buffer.size = cursor.buffer.size ∧
      Balanced (cursor.put (done.flatMap encoding)) todo := by
  induction done generalizing cursor with
  | nil => exact ⟨rfl, rfl, h⟩
  | cons put done ih =>
      rw [List.forall_mem_cons] at hputs
      obtain ⟨hwrite, hsize, hrest⟩ := Balanced.write hputs.1 h
      obtain ⟨hrun, hsizes, htodo⟩ := ih hputs.2 hrest
      rw [List.foldlM_cons, hwrite, List.flatMap_cons, WriteCursor.put_append]
      exact ⟨hrun, hsizes.trans hsize, htodo⟩

end Put

namespace Layout

variable {entries : List (Text × Value)} {path : Text} {n : Nat}

theorem measureAll_putsEach {measure : Value → Text → Except Misfit Nat}
    {puts : Value → Text → List Put} {items : List Value} {i size : Nat}
    (hitem : ∀ item path n, measure item path = .ok n → Put.measureAll (puts item path) = .ok n)
    (h : measureEach measure path items i size = .ok n) :
    ∃ others, Put.measureAll (putsEach puts path items i) = .ok others ∧ n = size + others := by
  induction items generalizing i size with
  | nil =>
      cases h
      exact ⟨0, rfl, rfl⟩
  | cons item rest ih =>
      obtain ⟨first, hfirst, hrest⟩ := measureEach_cons_eq_ok_iff.mp h
      obtain ⟨others, hothers, rfl⟩ := ih hrest
      exact ⟨first + others,
        Put.measureAll_append_eq_ok_iff.mpr ⟨first, others, hitem _ _ _ hfirst, hothers, rfl⟩,
        Nat.add_assoc _ _ _⟩

theorem standard_count : (WireType.number countType).Standard :=
  .whole false 2 (by decide)

theorem check_count {count : Nat} (h : count ≤ maxElements) :
    countType.check (.int count) = .ok () := by
  refine (NumberType.check_integer_int false 2 count).trans (if_pos ⟨Int.natCast_nonneg _, ?_⟩)
  have hmax : (count : Int) ≤ 0xFFFF := by exact_mod_cast h
  exact hmax

theorem measure_count {count : Nat} (h : count ≤ maxElements) (field : Value) :
    (WireType.number countType).measure (.int count) field = .ok 2 := by
  simp only [WireType.measure, check_count h]
  rfl

-- The size of a record is the size of all that is put on the wire for it.
theorem measureAll_puts {layout : Layout} (h : layout.measure entries path = .ok n) :
    Put.measureAll (layout.puts entries path) = .ok n := by
  induction layout generalizing entries path n with
  | nil => exact h
  | scalar name type wire rest ih =>
      obtain ⟨size, others, hsize, hothers, rfl⟩ := measure_scalar_eq_ok_iff.mp h
      exact Put.measureAll_cons_eq_ok_iff.mpr ⟨size, others, hsize, ih hothers, rfl⟩
  | object name members rest ihmembers ih =>
      obtain ⟨-, size, others, hsize, hothers, rfl⟩ := measure_object_eq_ok_iff.mp h
      exact Put.measureAll_append_eq_ok_iff.mpr ⟨size, others, ihmembers hsize, ih hothers, rfl⟩
  | array name count element rest ihelement ih =>
      obtain ⟨items, _, others, hitems, hsizes, hothers, rfl⟩ := measure_array_eq_ok_iff.mp h
      obtain ⟨rfl, hshort⟩ := eq_items_of_itemsOf hitems
      have hitem : ∀ item path n, measureItem element item path = .ok n →
          Put.measureAll (element.puts item.entries path) = .ok n := by
        intro item path n hn
        exact ihelement (measureItem_eq_ok_iff.mp hn).2
      obtain ⟨size, hsize, rfl⟩ := measureAll_putsEach hitem hsizes
      exact Put.measureAll_cons_eq_ok_iff.mpr ⟨2, size + others, measure_count hshort _,
        Put.measureAll_append_eq_ok_iff.mpr ⟨size, others, hsize, ih hothers, rfl⟩,
        Nat.add_assoc _ _ _⟩

theorem writeEach_eq_foldlM {measure : Value → Text → Except Misfit Nat}
    {write : WriteCursor → Value → Text → Except WriteFault WriteCursor}
    {puts : Value → Text → List Put} {items : List Value} {i size : Nat}
    (hitem : ∀ item path n, measure item path = .ok n → ∀ cursor,
      write cursor item path = (puts item path).foldlM Put.write cursor)
    (h : measureEach measure path items i size = .ok n) (cursor : WriteCursor) :
    writeEach write path items i cursor = (putsEach puts path items i).foldlM Put.write cursor := by
  induction items generalizing i size cursor with
  | nil => rfl
  | cons item rest ih =>
      obtain ⟨first, hfirst, hrest⟩ := measureEach_cons_eq_ok_iff.mp h
      rw [writeEach, putsEach, List.foldlM_append, hitem _ _ _ hfirst]
      cases (puts item (element path i)).foldlM Put.write cursor with
      | error => rfl
      | ok cursor => exact ih hrest cursor

-- Writing a record that can be measured is putting its fields one after the
-- other.
theorem write_eq_foldlM {layout : Layout} (h : layout.measure entries path = .ok n)
    (cursor : WriteCursor) :
    layout.write cursor entries path = (layout.puts entries path).foldlM Put.write cursor := by
  induction layout generalizing entries path n cursor with
  | nil => rfl
  | scalar name type wire rest ih =>
      obtain ⟨size, others, -, hothers, -⟩ := measure_scalar_eq_ok_iff.mp h
      rw [write, puts, List.foldlM_cons]
      exact bind_congr fun cursor => ih hothers cursor
  | object name members rest ihmembers ih =>
      obtain ⟨hinner, size, others, hsize, hothers, -⟩ := measure_object_eq_ok_iff.mp h
      rw [write, puts, List.foldlM_append, hinner, mapError_ok, ok_bind, ← ihmembers hsize]
      exact bind_congr fun cursor => ih hothers cursor
  | array name count element rest ihelement ih =>
      obtain ⟨items, _, others, hitems, hsizes, hothers, -⟩ := measure_array_eq_ok_iff.mp h
      have hitem : ∀ item path n, measureItem element item path = .ok n → ∀ cursor,
          (do element.write cursor (← (entriesOf item path).mapError .misfit) path) =
            (element.puts item.entries path).foldlM Put.write cursor := by
        intro item path n hn cursor
        obtain ⟨hinner, hn⟩ := measureItem_eq_ok_iff.mp hn
        rw [hinner, mapError_ok, ok_bind]
        exact ihelement hn cursor
      rw [write, puts, hitems, mapError_ok, ok_bind, List.foldlM_cons]
      obtain ⟨rfl, -⟩ := eq_items_of_itemsOf hitems
      refine bind_congr fun cursor => ?_
      rw [List.foldlM_append, ← writeEach_eq_foldlM hitem hsizes]
      exact bind_congr fun cursor => ih hothers cursor

section Standard

variable {types : TypeSet} {before : List Text} {fields : FieldList} {layout : Layout}

theorem standard_putsEach {puts : Value → Text → List Put}
    (hitem : ∀ item path, ∀ put ∈ puts item path, put.wire.Standard) (items : List Value)
    (i : Nat) :
    ∀ put ∈ putsEach puts path items i, put.wire.Standard := by
  induction items generalizing i with
  | nil => exact fun _ hput => absurd hput List.not_mem_nil
  | cons item rest ih => exact List.forall_mem_append.mpr ⟨hitem _ _, ih (i + 1)⟩

theorem standard_puts (hset : types.types = WireType.builtin)
    (h : Resolves types before fields layout) (entries : List (Text × Value)) (path : Text) :
    ∀ put ∈ layout.puts entries path, put.wire.Standard := by
  induction h generalizing entries path with
  | nil => exact fun _ hput => absurd hput List.not_mem_nil
  | leaf hname hscalar hwire hrest ih | empty hname hscalar hwire hrest ih =>
      exact List.forall_mem_cons.mpr ⟨(TypeSet.standard_of_find? hset hwire).1, ih _ _⟩
  | object hname hsome hmembers hrest ihmembers ih =>
      exact List.forall_mem_append.mpr ⟨ihmembers _ _, ih _ _⟩
  | array hname hsome hmembers hrest ihmembers ih =>
      exact List.forall_mem_cons.mpr ⟨standard_count,
        List.forall_mem_append.mpr ⟨standard_putsEach (fun _ _ => ihmembers _ _) _ 0, ih _ _⟩⟩

theorem flatMap_encoding_putsEach {puts : Value → Text → List Put}
    {encoding : Value → List UInt8}
    (hitem : ∀ item path, (puts item path).flatMap Put.encoding = encoding item)
    (items : List Value) (i : Nat) :
    (putsEach puts path items i).flatMap Put.encoding = items.flatMap encoding := by
  induction items generalizing i with
  | nil => rfl
  | cons item rest ih =>
      rw [putsEach, List.flatMap_append, hitem, ih, List.flatMap_cons]

-- All that is put on the wire for a record, one behind the other, are the bytes
-- of the record.
theorem flatMap_encoding_puts (hset : types.types = WireType.builtin)
    (h : Resolves types before fields layout) (entries : List (Text × Value)) (path : Text) :
    (layout.puts entries path).flatMap Put.encoding = fields.encoding entries := by
  induction h generalizing entries path with
  | nil => rfl
  | leaf hname hscalar hwire hrest ih =>
      rw [puts, List.flatMap_cons, ih, FieldList.encoding,
        (TypeSet.standard_of_find? hset hwire).2]
      rfl
  | empty hname hscalar hwire hrest ih =>
      rw [puts, List.flatMap_cons, ih, FieldList.encoding, FieldList.byKind_nil,
        (TypeSet.standard_of_find? hset hwire).2]
      rfl
  | object hname hsome hmembers hrest ihmembers ih =>
      rw [puts, List.flatMap_append, ihmembers, ih, FieldList.encoding,
        FieldList.byKind_object hsome]
  | array hname hsome hmembers hrest ihmembers ih =>
      rw [puts, List.flatMap_cons, List.flatMap_append, ih,
        flatMap_encoding_putsEach fun item path => ihmembers item.entries path, FieldList.encoding,
        FieldList.byKind_array hsome, ← List.append_assoc, ← LittleEndian.encodeInt_natCast]
      rfl

end Standard

end Layout

end PacketCodec
