import PacketCodec.Codec
import PacketCodec.Proofs.Layout.Format
import PacketCodec.Proofs.Wire.Reading

namespace PacketCodec

namespace Layout

-- Items are read one behind the other, as many as the count says, and come
-- behind those that were read before.
theorem reads_readEach {read : Reader Value} {spells : List UInt8 → Value → Prop}
    (h : Reads read spells) (count : Nat) (before : List Value) :
    Reads (fun b pos => readEach (read b) count pos before) fun bytes items =>
      ∃ added, added.length = count ∧ SpellsEach spells bytes added ∧
        items = before.reverse ++ added := by
  induction count generalizing before with
  | zero =>
      refine (Reads.pure before.reverse).congr fun bytes items => ?_
      constructor
      · rintro ⟨rfl, rfl⟩
        exact ⟨[], rfl, .nil, (List.append_nil _).symm⟩
      · rintro ⟨added, hadded, hspells, rfl⟩
        obtain rfl := List.length_eq_zero_iff.mp hadded
        cases hspells
        exact ⟨rfl, List.append_nil _⟩
  | succ count ih =>
      refine ((h.bind fun item => ih (item :: before)).of_eq fun b pos => ?_).congr
        fun bytes items => ?_
      · rw [readEach]
        cases read b pos <;> rfl
      constructor
      · rintro ⟨item, first, second, rfl, hfirst, added, rfl, hsecond, rfl⟩
        refine ⟨item :: added, rfl, .cons hfirst hsecond, ?_⟩
        rw [List.reverse_cons, List.append_assoc, List.singleton_append]
      · rintro ⟨added, hadded, hspells, rfl⟩
        cases hspells with
        | nil => contradiction
        | @cons first second item rest hfirst hsecond =>
            refine ⟨item, first, second, rfl, hfirst, rest, Nat.succ.inj hadded, hsecond, ?_⟩
            rw [List.reverse_cons, List.append_assoc, List.singleton_append]

-- Records that are spelled one behind the other, each by the entries in it.
theorem spellsEach_record {spells : List UInt8 → List (Text × Value) → Prop}
    {bytes : List UInt8} {items : List Value} :
    SpellsEach (fun bytes item => ∃ inner, spells bytes inner ∧ item = .record inner) bytes items ↔
      ∃ inners, SpellsEach spells bytes inners ∧ items = inners.map Value.record := by
  constructor
  · intro h
    induction h with
    | nil => exact ⟨[], .nil, rfl⟩
    | cons hfirst _ ih =>
        obtain ⟨inner, hinner, rfl⟩ := hfirst
        obtain ⟨inners, hinners, rfl⟩ := ih
        exact ⟨inner :: inners, .cons hinner hinners, rfl⟩
  · rintro ⟨inners, hinners, rfl⟩
    induction hinners with
    | nil => exact .nil
    | cons hfirst _ ih => exact .cons ⟨_, hfirst, rfl⟩ ih

-- A member in front of the members after it.
theorem reads_cons (name : Text) {read : Reader Value} {spells : List UInt8 → Value → Prop}
    {readRest : Reader (List (Text × Value))}
    {spellsRest : List UInt8 → List (Text × Value) → Prop}
    (h : Reads read spells) (hrest : Reads readRest spellsRest) :
    Reads
      (fun b pos => read b pos >>= fun (value, stop) =>
        (readRest b stop).map fun (others, stop) => ((name, value) :: others, stop))
      fun bytes entries => ∃ value others first second, bytes = first ++ second ∧
        entries = (name, value) :: others ∧ spells first value ∧ spellsRest second others := by
  refine (h.bind fun value => hrest.map ((name, value) :: ·)).congr fun bytes entries => ?_
  constructor
  · rintro ⟨value, first, second, rfl, hfirst, others, hsecond, rfl⟩
    exact ⟨value, others, first, second, rfl, rfl, hfirst, hsecond⟩
  · rintro ⟨value, others, first, second, rfl, rfl, hfirst, hsecond⟩
    exact ⟨value, first, second, rfl, hfirst, others, hsecond, rfl⟩

-- The elements of an array behind their count.
theorem reads_array {read : Reader (List (Text × Value))}
    {spells : List UInt8 → List (Text × Value) → Prop} (h : Reads read spells) :
    Reads
      (fun b pos => Bytes.take b pos 2 >>= fun (count, stop) =>
        (readEach (fun pos => (read b pos).map fun (inner, stop) => (.record inner, stop))
          (LittleEndian.decode count) stop []).map fun (items, stop) => (Value.list items, stop))
      fun bytes value => ∃ items count rest, bytes = count ++ rest ∧
        value = .list (items.map Value.record) ∧ count.length = 2 ∧
        LittleEndian.decode count = items.length ∧ SpellsEach spells rest items := by
  refine ((Bytes.reads_take 2).bind fun count =>
    (reads_readEach (h.map Value.record) (LittleEndian.decode count) []).map Value.list).congr
      fun bytes value => ?_
  constructor
  · rintro ⟨count, _, rest, rfl, ⟨hcount, rfl⟩, _, ⟨_, hlen, hspells, rfl⟩, rfl⟩
    obtain ⟨items, hitems, rfl⟩ := spellsEach_record.mp hspells
    exact ⟨items, count, rest, rfl, rfl, hcount, by rw [← hlen, List.length_map], hitems⟩
  · rintro ⟨items, count, rest, rfl, rfl, hcount, hlen, hspells⟩
    exact ⟨count, count, rest, rfl, ⟨hcount, rfl⟩, _,
      ⟨_, by rw [hlen, List.length_map], spellsEach_record.mpr ⟨items, hspells, rfl⟩, rfl⟩, rfl⟩

theorem reads (layout : Layout) : Reads (fun b pos => layout.read b pos) layout.Spells := by
  induction layout with
  | nil => exact Reads.pure []
  | scalar name type wire rest ih =>
      exact (reads_cons name wire.reads ih).of_eq fun b pos => rfl
  | object name members rest ihmembers ih =>
      refine ((reads_cons name (ihmembers.map Value.record) ih).of_eq fun b pos => ?_).congr
        fun bytes entries => ?_
      · simp only [read]
        cases members.read b pos <;> rfl
      constructor
      · rintro ⟨_, others, first, second, rfl, rfl, ⟨inner, hinner, rfl⟩, hrest⟩
        exact ⟨inner, others, first, second, rfl, rfl, hinner, hrest⟩
      · rintro ⟨inner, others, first, second, rfl, rfl, hinner, hrest⟩
        exact ⟨_, others, first, second, rfl, rfl, ⟨inner, hinner, rfl⟩, hrest⟩
  | array name count element rest ihelement ih =>
      refine ((reads_cons name (reads_array ihelement) ih).of_eq fun b pos => ?_).congr
        fun bytes entries => ?_
      · simp only [read]
        cases Bytes.take b pos 2 with
        | error => rfl
        | ok result =>
            dsimp only [bind, Except.bind]
            cases readEach _ _ result.2 [] <;> rfl
      constructor
      · rintro ⟨_, others, _, second, rfl, rfl, ⟨items, count, first, rfl, rfl, hcount, hlen,
          hitems⟩, hrest⟩
        exact ⟨items, others, count, first, second, List.append_assoc _ _ _, rfl, hcount, hlen,
          hitems, hrest⟩
      · rintro ⟨items, others, count, first, second, rfl, rfl, hcount, hlen, hitems, hrest⟩
        exact ⟨_, others, count ++ first, second, (List.append_assoc _ _ _).symm, rfl,
          ⟨items, count, first, rfl, rfl, hcount, hlen, hitems⟩, hrest⟩

end Layout

end PacketCodec
