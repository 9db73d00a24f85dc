import PacketCodec.Proofs.Effects
import PacketCodec.Proofs.Wire.Guarded
import PacketCodec.Proofs.Wire.Truncated
import PacketCodec.Proofs.Wire.Writing

namespace PacketCodec

section Atomic

variable {σ ε α : Type} {step : Except ε (α × σ)} {s after : σ}

-- The end of a step that is made as a whole or not at all.
def atomically (s : σ) : Except ε (α × σ) → EStateM.Result ε σ α
  | .ok (a, after) => .ok a after
  | .error e => .error e s

theorem atomically_eq_ok_iff {a : α} : atomically s step = .ok a after ↔ step = .ok (a, after) := by
  cases step <;> simp [atomically, Prod.ext_iff]

theorem atomically_eq_error_iff {e : ε} :
    atomically s step = .error e after ↔ step = .error e ∧ after = s := by
  cases step <;> simp [atomically, eq_comm]

end Atomic

namespace WriteCursor

-- The buffer with bytes in place of those at the cursor. It grows if they go
-- beyond its end.
def spliced (cursor : WriteCursor) (bytes : List UInt8) : Bytes :=
  (cursor.buffer.toList.take cursor.pos ++ bytes ++
    cursor.buffer.toList.drop (cursor.pos + bytes.length)).toArray

def assign (b : UInt8) : EStateM WriteFault WriteCursor Unit := do
  let cursor ← get
  if cursor.pos < cursor.buffer.size then
    set { cursor with buffer := cursor.buffer.setIfInBounds cursor.pos b }
  else throw .outOfBounds

def splice (bytes : List UInt8) : EStateM WriteFault WriteCursor Unit :=
  modify fun cursor => { cursor with buffer := cursor.spliced bytes }

-- Nothing is stored without room for it. A value that cannot be packed leaves
-- anything behind.
def pack (spoil : Bytes → Bytes) (packing : Packing) (value : Value) :
    EStateM WriteFault WriteCursor Unit := do
  let cursor ← get
  if cursor.buffer.size < cursor.pos + packing.width then throw .unpackable
  else
    match packing.pack? value with
    | some bytes => splice bytes
    | none => do
      set { cursor with buffer := spoil cursor.buffer }
      throw .unpackable

def advance (count : Nat) : EStateM WriteFault WriteCursor Unit :=
  modify fun cursor => { cursor with pos := cursor.pos + count }

variable {cursor : WriteCursor} {spoil : Bytes → Bytes} {packing : Packing} {value : Value}
  {bytes : List UInt8}

theorem put_eq (cursor : WriteCursor) (bytes : List UInt8) :
    cursor.put bytes = ⟨cursor.spliced bytes, cursor.pos + bytes.length⟩ := by
  have hbuffer : (cursor.put bytes).buffer = cursor.spliced bytes := by
    rw [spliced, ← toList_put]
  rw [← hbuffer, ← pos_put]

theorem run_splice (cursor : WriteCursor) (bytes : List UInt8) :
    (splice bytes >>= fun _ => advance bytes.length).run cursor = .ok () (cursor.put bytes) := by
  rw [put_eq]
  rfl

theorem run_assign (cursor : WriteCursor) (b : UInt8) :
    (assign b >>= fun _ => advance 1).run cursor =
      if cursor.pos < cursor.buffer.size then .ok () (cursor.putByte b)
      else .error .outOfBounds cursor := by
  by_cases h : cursor.pos < cursor.buffer.size
  · have hassign : (assign b).run cursor =
        ended (.ok ()) { cursor with buffer := cursor.buffer.set cursor.pos b } := by
      rw [assign, run_get_bind, if_pos h, Array.setIfInBounds, dif_pos h]
      rfl
    rw [run_bind_of_ok hassign, if_pos h, putByte_of_lt cursor b h]
    rfl
  · have hassign : (assign b).run cursor = ended (.error .outOfBounds) cursor := by
      rw [assign, run_get_bind, if_neg h]
      rfl
    rw [run_bind_of_error hassign, if_neg h]
    rfl

theorem run_pack (cursor : WriteCursor) (hbytes : packing.pack? value = some bytes)
    (hlen : bytes.length = packing.width) :
    (pack spoil packing value >>= fun _ => advance packing.width).run cursor =
      if cursor.pos + bytes.length ≤ cursor.buffer.size then .ok () (cursor.put bytes)
      else .error .unpackable cursor := by
  rw [← hlen]
  by_cases h : cursor.pos + bytes.length ≤ cursor.buffer.size
  · have hpack : (pack spoil packing value).run cursor =
        ended (.ok ()) { cursor with buffer := cursor.spliced bytes } := by
      rw [pack, run_get_bind, if_neg (by omega), hbytes]
      rfl
    rw [run_bind_of_ok hpack, if_pos h, put_eq]
    rfl
  · have hpack : (pack spoil packing value).run cursor = ended (.error .unpackable) cursor := by
      rw [pack, run_get_bind, if_pos (by omega)]
      rfl
    rw [run_bind_of_error hpack, if_neg h]
    rfl

end WriteCursor

namespace ReadCursor

def reserve (count : Nat) : EStateM ReadFault ReadCursor Nat := do
  let cursor ← get
  match cursor.take count with
  | .error t => throw (.truncated t)
  | .ok (start, after) => do
    set after
    return start

-- Looks into the buffer without moving the cursor.
def access {α : Type} (look : Bytes → Except ReadFault α) : EStateM ReadFault ReadCursor α := do
  let cursor ← get
  MonadExcept.ofExcept (look cursor.buffer)

variable {cursor : ReadCursor} {α : Type}

theorem run_access (look : Bytes → Except ReadFault α) (cursor : ReadCursor) :
    (access look).run cursor = ended (look cursor.buffer) cursor := by
  rw [access, run_get_bind, run_ofExcept]

theorem run_reserve (count : Nat) (cursor : ReadCursor) :
    (reserve count).run cursor =
      match cursor.buffer.reserve cursor.pos count with
      | .error t => ended (.error (.truncated t)) cursor
      | .ok stop => ended (.ok cursor.pos) { cursor with pos := stop } := by
  rw [reserve, run_get_bind, take, Bytes.reserve]
  by_cases h : cursor.buffer.size < cursor.pos + count
  · have hleft : max ((cursor.buffer.size : Int) - cursor.pos) 0 =
        (cursor.buffer.size - cursor.pos : Nat) := by omega
    rw [if_pos h, if_pos (by omega), hleft]
    rfl
  · rw [if_neg h, if_neg (by omega)]
    rfl

end ReadCursor

theorem Bytes.fault_of_decodeText {bytes : List UInt8} {fault : ReadFault}
    (h : decodeText bytes = .error fault) : fault = .undecodable := by
  rw [decodeText] at h
  cases hus : units? bytes with
  | none =>
      rw [hus] at h
      cases h
      rfl
  | some us =>
      rw [hus] at h
      contradiction

namespace WireType

open WriteCursor ReadCursor

-- A check before anything is stored.
def require {α : Type} (field : Value) : Except MisfitCause α → EStateM WriteFault WriteCursor α
  | .ok a => return a
  | .error cause => throw (.misfit ⟨cause, field⟩)

def writing (spoil : Bytes → Bytes) (type : WireType) (value field : Value) :
    EStateM WriteFault WriteCursor Unit :=
  match type with
  | flag => do
    assign (if value.truth then 1 else 0)
    advance 1
  | number type => do
    require field (type.check value)
    pack spoil type.packing value
    advance type.packing.width
  | text => do
    let t ← require field (textOf value)
    splice t.terminated
    advance t.terminated.length

-- A text is decoded when the cursor has moved behind it.
def reading : WireType → EStateM ReadFault ReadCursor Value
  | flag => do
    let start ← reserve 1
    let b ← access (·.byteAt start)
    return .bool (b != 0)
  | number type => do
    let start ← reserve type.packing.width
    let bytes ← access (·.unpackAt start type.packing.width)
    return type.packing.unpack bytes
  | text => do
    let cursor ← get
    let stop ← access (·.terminator cursor.pos)
    set { cursor with pos := stop + 2 }
    if stop = cursor.pos then return .text []
    else
      let t ← access fun buffer => Bytes.decodeText (buffer.slice cursor.pos stop)
      return .text t

variable {type : WireType} {value field : Value}

theorem run_writing (htype : type.Standard) (spoil : Bytes → Bytes) (value field : Value)
    (cursor : WriteCursor) :
    (type.writing spoil value field).run cursor =
      atomically cursor ((type.write cursor value field).map ((), ·)) := by
  cases type with
  | flag =>
      rw [writing, run_assign, write]
      split <;> rfl
  | number t =>
      rw [writing]
      simp only [write]
      cases h : t.check value with
      | error cause => rfl
      | ok _ =>
          obtain ⟨hpack, hlen, -⟩ := t.pack?_of_check htype value h
          refine (run_pack cursor hpack hlen).trans ?_
          simp only [hpack]
          by_cases hroom : cursor.pos + (t.packing.encoding value).length ≤ cursor.buffer.size
          · rw [if_pos hroom, if_pos hroom]
            rfl
          · rw [if_neg hroom, if_neg hroom]
            rfl
  | text =>
      rw [writing]
      simp only [write]
      cases textOf value with
      | error cause => rfl
      | ok t => exact run_splice cursor t.terminated

-- Where bytes are reserved, they are there.
theorem run_reserve_bind {α : Type} (next : Nat → EStateM ReadFault ReadCursor α)
    (cursor : ReadCursor) (count : Nat) :
    (reserve count >>= next).run cursor =
      if cursor.buffer.size < cursor.pos + count then
        .error (.truncated ⟨cursor.pos, count, (cursor.buffer.size - cursor.pos : Nat)⟩) cursor
      else (next cursor.pos).run { cursor with pos := cursor.pos + count } := by
  have hreserve := run_reserve count cursor
  rw [Bytes.reserve] at hreserve
  by_cases h : cursor.buffer.size < cursor.pos + count
  · rw [if_pos h] at hreserve ⊢
    exact run_bind_of_error hreserve
  · rw [if_neg h] at hreserve ⊢
    exact run_bind_of_ok hreserve

theorem run_reading_text (cursor : ReadCursor) :
    text.reading.run cursor = atomically cursor ((cursor.read text).mapError .truncated) := by
  have htext := Bytes.takeTextGuarded_eq cursor.buffer cursor.pos
  have hend := run_access (·.terminator cursor.pos) cursor
  rw [Bytes.takeTextGuarded] at htext
  rw [ReadCursor.read, reading, run_get_bind, read]
  generalize cursor.buffer.terminator cursor.pos = terminator at *
  cases terminator with
  | error fault =>
      rw [error_bind, eq_comm, mapError_eq_error_iff] at htext
      obtain ⟨t, ht, rfl⟩ := htext
      rw [run_bind_of_error hend, ht]
      rfl
  | ok stop =>
      rw [ok_bind] at htext
      rw [run_bind_of_ok hend]
      by_cases hempty : stop = cursor.pos
      · rw [if_pos hempty, eq_comm, mapError_eq_ok_iff] at htext
        simp only [if_pos hempty, htext]
        rfl
      · rw [if_neg hempty] at htext
        simp only [if_neg hempty]
        have hdecode :
            (access fun buffer => Bytes.decodeText (buffer.slice cursor.pos stop)).run
                { cursor with pos := stop + 2 } =
              ended (Bytes.decodeText (cursor.buffer.slice cursor.pos stop))
                { cursor with pos := stop + 2 } := run_access _ _
        cases hbytes : Bytes.decodeText (cursor.buffer.slice cursor.pos stop) with
        | error fault =>
            -- what ends at a zero unit has no odd byte
            obtain rfl := Bytes.fault_of_decodeText hbytes
            rw [hbytes, error_bind, eq_comm, mapError_eq_error_iff] at htext
            obtain ⟨t, -, ht⟩ := htext
            contradiction
        | ok t =>
            rw [hbytes] at htext hdecode
            rw [mapError_eq_ok_iff.mp htext.symm]
            exact run_bind_of_ok hdecode

theorem run_reading (type : WireType) (cursor : ReadCursor) :
    type.reading.run cursor = atomically cursor ((cursor.read type).mapError .truncated) := by
  cases type with
  | flag =>
      simp only [ReadCursor.read, read, Bytes.take, Bytes.reserve]
      rw [reading, run_reserve_bind]
      by_cases hroom : cursor.buffer.size < cursor.pos + 1
      · rw [if_pos hroom, if_pos hroom]
        rfl
      · have hbyte := run_access (·.byteAt cursor.pos) { cursor with pos := cursor.pos + 1 }
        have hlt : cursor.pos < cursor.buffer.size := by omega
        rw [Bytes.byteAt_of_lt hlt] at hbyte
        have hslice : cursor.buffer.slice cursor.pos (cursor.pos + 1) =
            [cursor.buffer[cursor.pos]] := Bytes.slice_one hlt
        rw [if_neg hroom, if_neg hroom, run_bind_of_ok hbyte]
        simp only [Except.map, hslice, LittleEndian.decode_singleton_bne]
        rfl
  | number t =>
      simp only [ReadCursor.read, read, Bytes.take, Bytes.reserve]
      rw [reading, run_reserve_bind]
      by_cases hroom : cursor.buffer.size < cursor.pos + t.packing.width
      · rw [if_pos hroom, if_pos hroom]
        rfl
      · have hbytes := run_access (·.unpackAt cursor.pos t.packing.width)
          { cursor with pos := cursor.pos + t.packing.width }
        rw [Bytes.unpackAt, if_neg hroom] at hbytes
        rw [if_neg hroom, if_neg hroom, run_bind_of_ok hbytes]
        rfl
  | text => exact run_reading_text cursor

theorem write_of_measure_error {m : Misfit} (h : type.measure value field = .error m)
    (cursor : WriteCursor) : type.write cursor value field = .error (.misfit m) := by
  cases type with
  | flag => contradiction
  | number t =>
      simp only [measure] at h
      simp only [write]
      cases hcheck : t.check value with
      | ok _ =>
          rw [hcheck] at h
          contradiction
      | error cause =>
          rw [hcheck] at h
          cases h
          rfl
  | text =>
      simp only [measure] at h
      simp only [write]
      cases htext : textOf value with
      | ok t =>
          rw [htext] at h
          contradiction
      | error cause =>
          rw [htext] at h
          cases h
          rfl

-- What holds for every value and cursor that a type writes with: what cannot be
-- measured fails in the same way, what fails has no effect, and what fits is put in
-- the place of as many bytes, which are the same wherever the value is written.
structure WriteContract (type : WireType) (spoil : Bytes → Bytes) : Prop where
  misfit : ∀ value field m cursor, type.measure value field = .error m →
    (type.writing spoil value field).run cursor = .error (.misfit m) cursor
  failed : ∀ value field cursor fault after,
    (type.writing spoil value field).run cursor = .error fault after →
      type.write cursor value field = .error fault ∧ after = cursor
  stored : ∀ value field n cursor, type.measure value field = .ok n →
    cursor.pos + n ≤ cursor.buffer.size →
      ∃ after, (type.writing spoil value field).run cursor = .ok () after ∧
        type.write cursor value field = .ok after ∧ after.pos = cursor.pos + n ∧
        after.buffer.size = cursor.buffer.size ∧ (type.encoding value).length = n ∧
        after.buffer.toList = cursor.buffer.toList.take cursor.pos ++ type.encoding value ++
          cursor.buffer.toList.drop (cursor.pos + n)

-- What holds for every cursor that a type reads with: what fails has no effect, and
-- what is read depends on the bytes that the cursor moves over and on nothing else.
structure ReadContract (type : WireType) : Prop where
  failed : ∀ cursor fault after, type.reading.run cursor = .error fault after →
    ∃ t, fault = .truncated t ∧ cursor.read type = .error t ∧ after = cursor
  moved : ∀ cursor value after, type.reading.run cursor = .ok value after →
    cursor.read type = .ok (value, after) ∧ after.buffer = cursor.buffer ∧
      cursor.pos ≤ after.pos ∧ after.pos ≤ cursor.buffer.size
  same : ∀ (cursor other : ReadCursor) value after, type.reading.run cursor = .ok value after →
    other.buffer.slice other.pos (other.pos + (after.pos - cursor.pos)) =
      cursor.buffer.slice cursor.pos after.pos →
    type.reading.run other = .ok value ⟨other.buffer, other.pos + (after.pos - cursor.pos)⟩

theorem writeContract (htype : type.Standard) (spoil : Bytes → Bytes) :
    type.WriteContract spoil where
  misfit value field m cursor h := by
    rw [run_writing htype, write_of_measure_error h]
    rfl
  failed value field cursor fault after h := by
    rw [run_writing htype, atomically_eq_error_iff, map_eq_error_iff] at h
    exact h
  stored value field n cursor h hroom := by
    have hlen := length_encoding htype h
    have hwrite := write_eq_put htype h cursor hroom
    refine ⟨cursor.put (type.encoding value), ?_, hwrite, ?_, ?_, hlen, ?_⟩
    · rw [run_writing htype, hwrite]
      rfl
    · rw [pos_put, hlen]
    · exact size_put _ _ (by omega)
    · rw [toList_put, hlen]

-- A value is read where its bytes are, and they are what the cursor moves over.
theorem run_reading_eq_ok_iff (htype : type.Standard) {cursor after : ReadCursor} :
    type.reading.run cursor = .ok value after ↔
      ∃ bytes, cursor.buffer.Holds cursor.pos bytes ∧ type.Spells bytes value ∧
        after = ⟨cursor.buffer, cursor.pos + bytes.length⟩ := by
  rw [run_reading, atomically_eq_ok_iff, mapError_eq_ok_iff, ReadCursor.read, map_eq_ok_iff]
  constructor
  · rintro ⟨⟨found, stop⟩, hread, h⟩
    cases h
    obtain ⟨bytes, hholds, rfl, hspells⟩ := type.reads.sound _ _ _ _ hread
    exact ⟨bytes, hholds, hspells, rfl⟩
  · rintro ⟨bytes, hholds, hspells, rfl⟩
    have hlen := length_pos_of_spells htype hspells
    have hroom := hholds.length_le
    exact ⟨_, type.reads.complete _ _ _ _ (by omega) hholds hspells, rfl⟩

theorem readContract (htype : type.Standard) : type.ReadContract where
  failed cursor fault after h := by
    rw [run_reading, atomically_eq_error_iff, mapError_eq_error_iff] at h
    obtain ⟨⟨t, ht, hfault⟩, hafter⟩ := h
    exact ⟨t, hfault, ht, hafter⟩
  moved cursor value after h := by
    obtain ⟨bytes, hholds, hspells, rfl⟩ := (run_reading_eq_ok_iff htype).mp h
    rw [run_reading, atomically_eq_ok_iff, mapError_eq_ok_iff] at h
    have hlen := length_pos_of_spells htype hspells
    have hroom := hholds.length_le
    refine ⟨h, rfl, Nat.le_add_right _ _, ?_⟩
    show cursor.pos + bytes.length ≤ _
    omega
  same cursor other value after h hslice := by
    obtain ⟨bytes, hholds, hspells, rfl⟩ := (run_reading_eq_ok_iff htype).mp h
    rw [hholds.slice_eq, Nat.add_sub_cancel_left] at hslice
    have hother := Bytes.holds_slice other.buffer other.pos (other.pos + bytes.length)
    rw [hslice] at hother
    rw [Nat.add_sub_cancel_left]
    exact (run_reading_eq_ok_iff htype).mpr ⟨bytes, hother, hspells, rfl⟩

-- The types that every type set starts with change a cursor in no other way,
-- whatever the packing of a number may leave behind.
theorem cursor_contract (name : Text) (type : WireType) (h : (name, type) ∈ builtin)
    (spoil : Bytes → Bytes) : type.WriteContract spoil ∧ type.ReadContract :=
  ⟨writeContract (standard_builtin _ h) spoil, readContract (standard_builtin _ h)⟩

theorem cursor_contract_int16_string :
    let int16 := number (.integer true 2)
    let cursor : WriteCursor := ⟨#[9, 9, 9, 9], 1⟩
    (("int16" : Text), int16) ∈ builtin ∧ (("string" : Text), text) ∈ builtin ∧
    (∃ after, (int16.writing (fun _ => #[]) (.int 258) .null).run cursor = .ok () after ∧
      after.pos = 3 ∧ after.buffer.toList = [9, 2, 1, 9]) ∧
    (int16.writing (fun _ => #[]) (.int 32768) .null).run cursor =
      .error (.misfit ⟨.outOfRange 32768 (-32768) 32767, .null⟩) cursor ∧
    text.reading.run ⟨#[7, 0x61, 0, 0, 0, 5], 1⟩ =
      .ok (.text "a") ⟨#[7, 0x61, 0, 0, 0, 5], 5⟩ ∧
    text.reading.run ⟨#[0x61, 0, 0, 0], 0⟩ = .ok (.text "a") ⟨#[0x61, 0, 0, 0], 4⟩ := by
  intro int16 cursor
  have hint16 : (("int16" : Text), int16) ∈ builtin := by simp [builtin, int16]
  have hstring : (("string" : Text), text) ∈ builtin := by simp [builtin]
  obtain ⟨hwrites, -⟩ := cursor_contract "int16" int16 hint16 fun _ => #[]
  obtain ⟨-, hreads⟩ := cursor_contract "string" text hstring id
  have hread : text.reading.run ⟨#[7, 0x61, 0, 0, 0, 5], 1⟩ =
      .ok (.text "a") ⟨#[7, 0x61, 0, 0, 0, 5], 5⟩ := by
    rw [run_reading]
    rfl
  obtain ⟨after, hrun, -, hpos, -, -, hbuffer⟩ :=
    hwrites.stored (.int 258) .null 2 cursor rfl (by decide)
  exact ⟨hint16, hstring, ⟨after, hrun, hpos, hbuffer⟩,
    hwrites.misfit (.int 32768) .null _ cursor rfl, hread,
    hreads.same _ ⟨#[0x61, 0, 0, 0], 0⟩ _ _ hread rfl⟩

end WireType

end PacketCodec
