import PacketCodec.Proofs.Codec.Encoding
import PacketCodec.Proofs.Layout.Locations

namespace PacketCodec

namespace Value

-- Of the elements of an array, the first.
def next (value : Value) : Component → Value
  | .member name => lookUp value.entries name
  | .element name => (lookUp value.entries name).items.headD .null

-- The value at a location of a record.
def found (value : Value) (components : List Component) : Value :=
  components.foldl next value

theorem found_concat (value : Value) (outer : List Component) (component : Component) :
    value.found (outer ++ [component]) = (value.found outer).next component := by
  rw [found, List.foldl_append]
  rfl

end Value

namespace FieldList

-- Whether every array has exactly one element.
def Single : FieldList → (entries : List (Text × Value)) → Prop
  | nil, _ => True
  | leaf _ _ rest, entries => rest.Single entries
  | branch name type members rest, entries =>
    let value := lookUp entries name
    byKind type members True (members.Single value.entries)
        (value.items.length = 1 ∧ ∀ item ∈ value.items, members.Single item.entries) ∧
      rest.Single entries

-- The locations that rows are about.
def rowLocations (fields : FieldList) (outer : List Component) (first : Nat) : List Location :=
  (fields.locations outer first).filter fun location => location.row?.isSome

section Branch

variable {members : FieldList} (name : Text) (rest : FieldList) (outer : List Component)
  (first : Nat)

theorem rowLocations_object (hsome : members.isEmpty = false) :
    (branch name objectType members rest).rowLocations outer first =
      members.rowLocations (outer ++ [.member name]) first ++
        rest.rowLocations outer (first + members.arrays) := by
  rw [rowLocations, locations_object _ _ _ _ hsome, List.filter_cons, List.filter_append]
  rfl

theorem rowLocations_array (hsome : members.isEmpty = false) :
    (branch name arrayType members rest).rowLocations outer first =
      ⟨outer, name, .array first⟩ :: (members.rowLocations (outer ++ [.element name]) (first + 1) ++
        rest.rowLocations outer (first + (members.arrays + 1))) := by
  rw [rowLocations, locations_array _ _ _ _ hsome, List.filter_cons, List.filter_append]
  rfl

end Branch

theorem map_row?_rowLocations (fields : FieldList) (outer : List Component) (first : Nat) :
    (fields.rowLocations outer first).map Location.row? =
      ((fields.locations outer first).filterMap Location.row?).map some := by
  rw [rowLocations]
  induction fields.locations outer first with
  | nil => rfl
  | cons location rest ih =>
      cases hrow : location.row? with
      | none => simp [hrow, ih]
      | some row => simp [hrow, ih]

end FieldList

-- The bytes of a row: what the type of a field writes for the value at its
-- location, or the count of an array.
def Location.Segment (types : TypeSet) (value : Value) (location : Location)
    (bytes : List UInt8) : Prop :=
  match location.part with
  | .single type =>
    ∃ wire, types.find? type = some wire ∧ wire.Writes (value.found location.components) bytes
  | .object => False
  | .array _ => bytes = LittleEndian.encode 2 (value.found location.components).items.length

namespace Layout

variable {types : TypeSet} {before : List Text} {fields : FieldList} {layout : Layout}
  {outer : List Component} {value : Value} {path : Text} {n : Nat}

theorem segment_single (hset : types.types = WireType.builtin) {name type : Text} {wire : WireType}
    {field : Value} (hwire : types.find? type = some wire)
    (h : wire.measure (lookUp (value.found outer).entries name) field = .ok n) :
    (⟨outer, name, .single type⟩ : Location).Segment types value
      (wire.encoding (lookUp (value.found outer).entries name)) := by
  refine ⟨wire, hwire, ?_⟩
  rw [Location.components, Value.found_concat]
  exact WireType.writes_encoding (TypeSet.standard_of_find? hset hwire).1 h

theorem segment_count {name : Text} {number : Nat} {field : Value} :
    (⟨outer, name, .array number⟩ : Location).Segment types value
      (Put.encoding ⟨.number countType,
        .int (lookUp (value.found outer).entries name).items.length, field⟩) := by
  change _ = LittleEndian.encode 2 (value.found (outer ++ [.member name])).items.length
  rw [Value.found_concat, ← LittleEndian.encodeInt_natCast]
  rfl

-- All that is put on the wire is put there for the rows, one after the other.
theorem forall₂_segment (hset : types.types = WireType.builtin)
    (hresolves : Resolves types before fields layout) (first : Nat)
    (hsingle : fields.Single (value.found outer).entries)
    (h : layout.measure (value.found outer).entries path = .ok n) :
    List.Forall₂ (Location.Segment types value) (fields.rowLocations outer first)
      ((layout.puts (value.found outer).entries path).map Put.encoding) := by
  induction hresolves generalizing outer first path n with
  | nil => exact .nil
  | @leaf before name type rest wire others hname hscalar hwire hrest ih =>
      obtain ⟨size, more, hsize, hmore, -⟩ := measure_scalar_eq_ok_iff.mp h
      exact .cons (segment_single hset hwire hsize) (ih first hsingle hmore)
  | @empty before name type rest wire others hname hscalar hwire hrest ih =>
      obtain ⟨size, more, hsize, hmore, -⟩ := measure_scalar_eq_ok_iff.mp h
      exact .cons (segment_single hset hwire hsize) (ih _ hsingle.2 hmore)
  | @object before name members rest inner others hname hsome hmembers hrest ihmembers ih =>
      obtain ⟨-, size, more, hsize, hmore, -⟩ := measure_object_eq_ok_iff.mp h
      obtain ⟨hinner, hothers⟩ := hsingle
      rw [FieldList.byKind_object hsome] at hinner
      have hfound : value.found (outer ++ [.member name]) =
          lookUp (value.found outer).entries name := value.found_concat _ _
      rw [← hfound] at hinner hsize
      have hput := ihmembers first hinner hsize
      rw [FieldList.rowLocations_object _ _ _ _ hsome, puts, List.map_append, ← hfound]
      exact List.rel_append hput (ih _ hothers hmore)
  | @array before name members rest count element others hname hsome hmembers hrest ihmembers ih =>
      obtain ⟨items, size, more, hitems, hsize, hmore, -⟩ := measure_array_eq_ok_iff.mp h
      obtain ⟨rfl, -⟩ := eq_items_of_itemsOf hitems
      obtain ⟨hinner, hothers⟩ := hsingle
      rw [FieldList.byKind_array hsome] at hinner
      -- the only element is the one that the components lead to
      obtain ⟨item, hitem⟩ := List.length_eq_one_iff.mp hinner.1
      have hfound : value.found (outer ++ [.element name]) = item := by
        rw [Value.found_concat, Value.next, hitem]
        rfl
      have hone := hinner.2 item (hitem ▸ List.mem_singleton_self item)
      rw [hitem] at hsize
      obtain ⟨more, hsize, -⟩ := measureEach_cons_eq_ok_iff.mp hsize
      have hsize := (measureItem_eq_ok_iff.mp hsize).2
      rw [← hfound] at hone hsize
      have hput := ihmembers (first + 1) hone hsize
      rw [hfound] at hput
      rw [FieldList.rowLocations_array _ _ _ _ hsome, puts, List.map_cons, List.map_append]
      refine .cons segment_count (List.rel_append ?_ (ih _ hothers hmore))
      rw [hitem, putsEach, putsEach, List.append_nil]
      exact hput

end Layout

namespace Codec

variable {set : TypeSet} {fields : FieldList} {name version value : Value} {codec : Codec} {n : Nat}

-- The rows of a codec are its wire order: one piece for each of them, in the same
-- order, and nothing before, between or behind the pieces. The counts of arrays
-- are named by the numbers that the type set goes on with.
theorem encode_segments (hset : set.types = WireType.builtin)
    (hcodec : (set.codec fields name version).1 = .ok codec) (h : codec.measure value = .ok n)
    (hsingle : fields.Single value.entries) :
    codec.rows.map some = (fields.rowLocations [] set.issued).map Location.row? ∧
    (∃ segments,
      List.Forall₂ (Location.Segment set value) (fields.rowLocations [] set.issued) segments ∧
      ∀ k, ∃ buffer, codec.encode value k = .ok buffer ∧
        buffer.toList = List.replicate k 0 ++ segments.flatten) ∧
    (fields.locations [] set.issued).filterMap Location.number? =
      List.range' set.issued fields.arrays ∧
    (set.codec fields name version).2.issued = set.issued + fields.arrays := by
  have hresolves := TypeSet.resolves_of_codec hcodec
  obtain ⟨hissued, hrows⟩ := TypeSet.rows_of_codec hcodec
  have hmeasure : codec.layout.measure (value.found []).entries [] = .ok n :=
    (measure_eq_ok_iff.mp h).2
  have hsegments := @Layout.forall₂_segment _ _ _ _ [] value _ _ hset hresolves set.issued hsingle
    hmeasure
  refine ⟨?_, ⟨_, hsegments, ?_⟩, fields.filterMap_number? [] set.issued, hissued⟩
  · rw [hrows, FieldList.map_row?_rowLocations]
  · intro k
    obtain ⟨cursor, -, hencode, -, hbytes⟩ := write_of_measure hset hcodec h k
    refine ⟨cursor.buffer, hencode, ?_⟩
    rw [hbytes, ← Layout.flatMap_encoding_puts hset hresolves _ [], List.flatMap_def]
    rfl

def spawnRecord : Value :=
  .record [("path", .tuple [.record [("x", .int (-2))]]), ("spawn", .null)]

theorem encode_segments_spawn :
    spawnCodec.rows.map some = (spawnFields.rowLocations [] 0).map Location.row? ∧
    (∃ segments, List.Forall₂ (Location.Segment (.new .null) spawnRecord)
        (spawnFields.rowLocations [] 0) segments ∧
      ∀ k, ∃ buffer, spawnCodec.encode spawnRecord k = .ok buffer ∧
        buffer.toList = List.replicate k 0 ++ segments.flatten) ∧
    (spawnFields.locations [] 0).filterMap Location.number? = [0] ∧
    ((TypeSet.new .null).codec spawnFields .null .null).2.issued = 1 := by
  have hmeasure : spawnCodec.measure spawnRecord = .ok 7 := by rfl
  have hsingle : spawnFields.Single spawnRecord.entries :=
    ⟨trivial, ⟨rfl, fun _ _ => trivial⟩, trivial⟩
  exact encode_segments (TypeSet.types_new .null) codec_spawnFields hmeasure hsingle

end Codec

end PacketCodec
