import Mathlib.Data.List.Infix
import PacketCodec.Wire.Cursor

-- Readers: functions that read something at a position of a buffer and return
-- the position after it. A reader belongs to a relation between bytes and what
-- they spell: it reads exactly what the relation allows, looks at nothing but
-- the bytes it consumes, and reports how far the buffer is from being enough.

namespace PacketCodec

namespace Bytes

variable {b : Bytes} {pos : Nat} {bytes : List UInt8}

-- The buffer has the given bytes at a position.
def Holds (b : Bytes) (pos : Nat) (bytes : List UInt8) : Prop :=
  bytes <+: b.toList.drop pos

theorem holds_nil : b.Holds pos [] :=
  List.nil_prefix

theorem holds_append {first second : List UInt8} :
    b.Holds pos (first ++ second) ↔ b.Holds pos first ∧ b.Holds (pos + first.length) second := by
  unfold Holds
  constructor
  · rintro ⟨rest, hrest⟩
    refine ⟨⟨second ++ rest, by rw [← List.append_assoc, hrest]⟩, rest, ?_⟩
    rw [← List.drop_drop, ← hrest, List.append_assoc, List.drop_left]
  · rintro ⟨⟨rest, hrest⟩, hsecond⟩
    rw [← List.drop_drop, ← hrest, List.drop_left] at hsecond
    rw [← hrest]
    exact (List.prefix_append_right_inj first).mpr hsecond

theorem Holds.length_le (h : b.Holds pos bytes) : bytes.length ≤ b.size - pos := by
  simpa using List.IsPrefix.length_le h

theorem Holds.stop_le (h : b.Holds pos bytes) (hpos : pos ≤ b.size) :
    pos + bytes.length ≤ b.size := by
  have := h.length_le
  omega

-- More bytes behind the buffer change nothing.
theorem Holds.append (h : b.Holds pos bytes) (more : Bytes) : (b ++ more).Holds pos bytes := by
  obtain ⟨rest, hrest⟩ := h
  have hprefix : b.toList.drop pos <+: (b ++ more).toList.drop pos := by
    rw [Array.toList_append, List.drop_append]
    exact List.prefix_append _ _
  exact List.IsPrefix.trans ⟨rest, hrest⟩ hprefix

theorem slice_eq (b : Bytes) (start stop : Nat) :
    b.slice start stop = (b.toList.drop start).take (stop - start) := by
  simp [slice]

theorem Holds.slice_eq (h : b.Holds pos bytes) : b.slice pos (pos + bytes.length) = bytes := by
  rw [Bytes.slice_eq, Nat.add_sub_cancel_left]
  exact (List.prefix_iff_eq_take.mp h).symm

theorem length_slice (start stop : Nat) (h : stop ≤ b.size) :
    (b.slice start stop).length = stop - start := by
  simp [slice]
  omega

theorem slice_append_slice (b : Bytes) {start middle stop : Nat} (h : start ≤ middle)
    (hstop : middle ≤ stop) : b.slice start middle ++ b.slice middle stop = b.slice start stop := by
  obtain ⟨first, rfl⟩ := Nat.exists_eq_add_of_le h
  obtain ⟨second, rfl⟩ := Nat.exists_eq_add_of_le hstop
  rw [slice_eq, slice_eq, slice_eq, Nat.add_sub_cancel_left, Nat.add_sub_cancel_left,
    Nat.add_assoc, Nat.add_sub_cancel_left, List.take_add, List.drop_drop]

theorem holds_slice (b : Bytes) (start stop : Nat) : b.Holds start (b.slice start stop) := by
  rw [Bytes.slice_eq]
  exact List.take_prefix _ _

-- What lies within the first bytes of a buffer is also there without the rest.
theorem Holds.extract (h : b.Holds pos bytes) {n : Nat} (hn : pos + bytes.length ≤ n) :
    Holds (b.extract 0 n) pos bytes := by
  have hlist : (b.extract 0 n).toList.drop pos = (b.toList.drop pos).take (n - pos) := by
    rw [Array.toList_extract, List.extract_eq_take_drop, List.drop_zero, Nat.sub_zero,
      List.drop_take]
  unfold Holds
  rw [hlist]
  exact List.prefix_take_iff.mpr ⟨h, by omega⟩

theorem slice_extract (b : Bytes) (start : Nat) {stop n : Nat} (h : stop ≤ n) :
    slice (b.extract 0 n) start stop = b.slice start stop := by
  rw [slice, slice, Array.extract_extract, Nat.zero_add, Nat.zero_add, Nat.min_eq_left h]

theorem extract_append_rest (b : Bytes) {n : Nat} (h : n ≤ b.size) :
    b.extract 0 n ++ b.extract n b.size = b := by
  rw [Array.extract_append_extract, Nat.zero_min, Nat.max_eq_right h, Array.extract_size]

-- Bytes in the middle are at the position of their first one.
theorem holds_middle (front back : Bytes) (bytes : List UInt8) :
    (front ++ bytes.toArray ++ back).Holds front.size bytes := by
  refine Holds.append ⟨[], ?_⟩ back
  simp

end Bytes

variable {α β : Type}

abbrev Reader (α : Type) :=
  Bytes → Nat → Except Truncation (α × Nat)

structure Reads (read : Reader α) (spells : List UInt8 → α → Prop) : Prop where
  sound : ∀ b pos a stop, read b pos = .ok (a, stop) →
    ∃ bytes, b.Holds pos bytes ∧ stop = pos + bytes.length ∧ spells bytes a
  complete : ∀ b pos bytes a, pos ≤ b.size → b.Holds pos bytes → spells bytes a →
    read b pos = .ok (a, pos + bytes.length)
  -- what could be read can still be read when more bytes follow
  extend : ∀ b pos result more, read b pos = .ok result → read (b ++ more) pos = .ok result
  -- with fewer bytes than are missing the reader stops at the same place
  starve : ∀ b pos t (more : Bytes), read b pos = .error t → more.size < t.needed - t.available →
    ∃ t', read (b ++ more) pos = .error t' ∧ t'.offset = t.offset

namespace Reads

variable {read : Reader α} {spells : List UInt8 → α → Prop}

theorem congr {spells' : List UInt8 → α → Prop} (h : Reads read spells)
    (hiff : ∀ bytes a, spells bytes a ↔ spells' bytes a) : Reads read spells' := by
  have heq : spells = spells' := by
    funext bytes a
    exact propext (hiff bytes a)
  rwa [← heq]

theorem of_eq {read' : Reader α} (h : Reads read spells)
    (heq : ∀ b pos, read' b pos = read b pos) : Reads read' spells := by
  have heq : read' = read := by
    funext b pos
    exact heq b pos
  rwa [heq]

theorem pure (a : α) :
    Reads (fun _ pos => .ok (a, pos)) fun bytes a' => bytes = [] ∧ a' = a where
  sound b pos a' stop h := by
    cases h
    exact ⟨[], Bytes.holds_nil, rfl, rfl, rfl⟩
  complete b pos bytes a' hpos hholds h := by
    obtain ⟨rfl, rfl⟩ := h
    rfl
  extend b pos result more h := h
  starve b pos t more h := by contradiction

theorem map (f : α → β) (h : Reads read spells) :
    Reads (fun b pos => (read b pos).map fun (a, stop) => (f a, stop))
      fun bytes c => ∃ a, spells bytes a ∧ c = f a where
  sound b pos c stop hc := by
    cases hr : read b pos with
    | error t =>
        rw [hr] at hc
        contradiction
    | ok result =>
        rw [hr] at hc
        cases hc
        obtain ⟨bytes, hholds, hstop, hspells⟩ := h.sound b pos _ _ hr
        exact ⟨bytes, hholds, hstop, result.1, hspells, rfl⟩
  complete b pos bytes c hpos hholds := by
    rintro ⟨a, hspells, rfl⟩
    rw [h.complete b pos bytes a hpos hholds hspells]
    rfl
  extend b pos result more hc := by
    cases hr : read b pos with
    | error t =>
        rw [hr] at hc
        contradiction
    | ok _ =>
        rw [h.extend b pos _ more hr, ← hr]
        exact hc
  starve b pos t more ht hmore := by
    cases hr : read b pos with
    | error t' =>
        rw [hr] at ht
        cases ht
        obtain ⟨t', ht', hoffset⟩ := h.starve b pos t more hr hmore
        exact ⟨t', by rw [ht']; rfl, hoffset⟩
    | ok _ =>
        rw [hr] at ht
        contradiction

-- One reader after the other. The second may depend on what the first has read.
theorem bind {next : α → Reader β} {spells' : α → List UInt8 → β → Prop}
    (h : Reads read spells) (hnext : ∀ a, Reads (next a) (spells' a)) :
    Reads (fun b pos => read b pos >>= fun (a, stop) => next a b stop)
      fun bytes c => ∃ a first second, bytes = first ++ second ∧ spells first a ∧
        spells' a second c where
  sound b pos c stop hc := by
    cases hr : read b pos with
    | error t =>
        rw [hr] at hc
        contradiction
    | ok result =>
        obtain ⟨a, middle⟩ := result
        rw [hr] at hc
        obtain ⟨first, hfirst, rfl, hspells⟩ := h.sound b pos _ _ hr
        obtain ⟨second, hsecond, rfl, hspells'⟩ := (hnext a).sound b _ c stop hc
        refine ⟨first ++ second, Bytes.holds_append.mpr ⟨hfirst, hsecond⟩, ?_,
          a, first, second, rfl, hspells, hspells'⟩
        rw [List.length_append, Nat.add_assoc]
  complete b pos bytes c hpos hholds := by
    rintro ⟨a, first, second, rfl, hspells, hspells'⟩
    obtain ⟨hfirst, hsecond⟩ := Bytes.holds_append.mp hholds
    rw [h.complete b pos first a hpos hfirst hspells, List.length_append, ← Nat.add_assoc]
    exact (hnext a).complete b _ second c (hfirst.stop_le hpos) hsecond hspells'
  extend b pos result more hc := by
    cases hr : read b pos with
    | error t =>
        rw [hr] at hc
        contradiction
    | ok middle =>
        rw [hr] at hc
        rw [h.extend b pos _ more hr]
        exact (hnext middle.1).extend b middle.2 result more hc
  starve b pos t more ht hmore := by
    cases hr : read b pos with
    | error t' =>
        rw [hr] at ht
        cases ht
        obtain ⟨t', ht', hoffset⟩ := h.starve b pos t more hr hmore
        exact ⟨t', by rw [ht']; rfl, hoffset⟩
    | ok middle =>
        rw [hr] at ht
        obtain ⟨t', ht', hoffset⟩ := (hnext middle.1).starve b middle.2 t more ht hmore
        exact ⟨t', by rw [h.extend b pos _ more hr]; exact ht', hoffset⟩

section Delimited

variable {b : Bytes} {pos stop n : Nat} {a : α}

theorem le_stop (h : Reads read spells) (hr : read b pos = .ok (a, stop)) : pos ≤ stop := by
  obtain ⟨bytes, -, rfl, -⟩ := h.sound b pos a stop hr
  exact Nat.le_add_right _ _

theorem stop_le_size (h : Reads read spells) (hpos : pos ≤ b.size)
    (hr : read b pos = .ok (a, stop)) : stop ≤ b.size := by
  obtain ⟨bytes, hholds, rfl, -⟩ := h.sound b pos a stop hr
  exact hholds.stop_le hpos

theorem stop_le_max (h : Reads read spells) (hr : read b pos = .ok (a, stop)) :
    stop ≤ max pos b.size := by
  obtain ⟨bytes, hholds, rfl, -⟩ := h.sound b pos a stop hr
  have hroom := hholds.length_le
  omega

-- What is read depends on nothing but the bytes between the two positions.
theorem move (h : Reads read spells) (hr : read b pos = .ok (a, stop)) (front back : Bytes) :
    read (front ++ b.extract pos stop ++ back) front.size = .ok (a, front.size + (stop - pos)) := by
  obtain ⟨bytes, hholds, rfl, hspells⟩ := h.sound b pos a stop hr
  have hslice : b.extract pos (pos + bytes.length) = bytes.toArray :=
    congrArg List.toArray hholds.slice_eq
  rw [hslice, Nat.add_sub_cancel_left]
  refine h.complete _ _ bytes a ?_ (Bytes.holds_middle front back bytes) hspells
  simp only [Array.size_append]
  omega

-- A buffer that ends behind what was read is as good as the whole one.
theorem within (h : Reads read spells) (hr : read b pos = .ok (a, stop)) (hpos : pos ≤ n)
    (hstop : stop ≤ n) (hsize : n ≤ b.size) : read (b.extract 0 n) pos = .ok (a, stop) := by
  obtain ⟨bytes, hholds, rfl, hspells⟩ := h.sound b pos a stop hr
  refine h.complete _ _ bytes a ?_ (hholds.extract hstop) hspells
  rw [Array.size_extract]
  omega

-- A buffer that ends before what was read cannot be read.
theorem cut (h : Reads read spells) (hr : read b pos = .ok (a, stop)) (hpos : pos ≤ n)
    (hstop : n < stop) (hsize : stop ≤ b.size) : ∃ t, read (b.extract 0 n) pos = .error t := by
  cases hcut : read (b.extract 0 n) pos with
  | error t => exact ⟨t, rfl⟩
  | ok result =>
      -- the rest of the buffer would change nothing, but the end lies in it
      have hwhole := h.extend _ _ _ (b.extract n b.size) hcut
      rw [b.extract_append_rest (by omega), hr] at hwhole
      cases hwhole
      have hend := h.stop_le_size (by rw [Array.size_extract]; omega) hcut
      rw [Array.size_extract] at hend
      omega

-- A buffer that cannot be read does not get better by being cut.
theorem cut_error (h : Reads read spells) {t : Truncation} (hr : read b pos = .error t)
    (hsize : n ≤ b.size) : ∃ t', read (b.extract 0 n) pos = .error t' := by
  cases hcut : read (b.extract 0 n) pos with
  | error t' => exact ⟨t', rfl⟩
  | ok result =>
      have hwhole := h.extend _ _ _ (b.extract n b.size) hcut
      rw [b.extract_append_rest hsize, hr] at hwhole
      contradiction

end Delimited

end Reads

end PacketCodec
