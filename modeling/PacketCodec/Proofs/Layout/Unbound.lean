import PacketCodec.Codec
import PacketCodec.Proofs.Except

namespace PacketCodec

namespace Layout

-- The layout without the working names of its counts.
def unbound : Layout → Layout
  | nil => nil
  | scalar name type wire rest => scalar name type wire rest.unbound
  | object name members rest => object name members.unbound rest.unbound
  | array name _ element rest => array name [] element.unbound rest.unbound

theorem read_unbound (layout : Layout) (b : Bytes) (pos : Nat) :
    layout.unbound.read b pos = layout.read b pos := by
  induction layout generalizing pos with
  | nil => rfl
  | scalar name type wire rest ih => simp only [unbound, read, ih]
  | object name members rest ihmembers ih => simp only [unbound, read, ihmembers, ih]
  | array name count element rest ihelement ih => simp only [unbound, read, ihelement, ih]

theorem measure_unbound (layout : Layout) (entries : List (Text × Value)) (path : Text) :
    layout.unbound.measure entries path = layout.measure entries path := by
  induction layout generalizing entries path with
  | nil => rfl
  | scalar name type wire rest ih => simp only [unbound, measure, ih]
  | object name members rest ihmembers ih => simp only [unbound, measure, ihmembers, ih]
  | array name count element rest ihelement ih => simp only [unbound, measure, ihelement, ih]

theorem write_unbound (layout : Layout) (cursor : WriteCursor) (entries : List (Text × Value))
    (path : Text) :
    layout.unbound.write cursor entries path = layout.write cursor entries path := by
  induction layout generalizing cursor entries path with
  | nil => rfl
  | scalar name type wire rest ih => simp only [unbound, write, ih]
  | object name members rest ihmembers ih => simp only [unbound, write, ihmembers, ih]
  | array name count element rest ihelement ih => simp only [unbound, write, ihelement, ih]

section Compile

variable {types types' : TypeSet}

theorem scalarType_congr (h : types.types = types'.types) (path type : Text) :
    scalarType types path type = scalarType types' path type := by
  simp only [scalarType, TypeSet.get, TypeSet.find?, h]

theorem cases_of_map_unbound {e e' : Except CompileError Layout}
    (h : e.map unbound = e'.map unbound) :
    (∃ fault, e = .error fault ∧ e' = .error fault) ∨
      ∃ layout layout', e = .ok layout ∧ e' = .ok layout' ∧ layout.unbound = layout'.unbound := by
  cases e with
  | error fault =>
      cases e' with
      | error fault' =>
          cases h
          exact .inl ⟨fault, rfl, rfl⟩
      | ok layout' => contradiction
  | ok layout =>
      cases e' with
      | error fault' => contradiction
      | ok layout' => exact .inr ⟨layout, layout', rfl, rfl, Except.ok.inj h⟩

theorem map_unbound_congr {e e' : Except CompileError Layout} {f f' : Layout → Layout}
    (h : e.map unbound = e'.map unbound)
    (hf : ∀ layout layout' : Layout, layout.unbound = layout'.unbound →
      (f layout).unbound = (f' layout').unbound) :
    (e.map f).map unbound = (e'.map f').map unbound := by
  rcases cases_of_map_unbound h with ⟨fault, rfl, rfl⟩ | ⟨layout, layout', rfl, rfl, heq⟩
  · rfl
  · exact congrArg Except.ok (hf _ _ heq)

-- Neither the layout nor the error of a definition depends on how many names
-- were handed out.
theorem compile_unbound (h : types.types = types'.types) (fields : FieldList) (path : Text)
    (before : List Text) (issued issued' : Nat) :
    (compile types fields path before issued).1.map unbound =
      (compile types' fields path before issued').1.map unbound := by
  induction fields generalizing path before issued issued' with
  | nil => rfl
  | leaf name type rest ih =>
      simp only [compile, scalarType_congr h]
      cases nameError? path before name with
      | some e => rfl
      | none =>
          cases scalarType types' (member path name) type with
          | error e => rfl
          | ok wire =>
              refine map_unbound_congr (ih _ _ _ _) fun layout layout' heq => ?_
              simp only [unbound, heq]
  | branch name type members rest ihmembers ih =>
      simp only [compile, scalarType_congr h]
      cases nameError? path before name with
      | some e => rfl
      | none =>
          simp only
          split
          · cases scalarType types' (member path name) type with
            | error e => rfl
            | ok wire =>
                refine map_unbound_congr (ih _ _ _ _) fun layout layout' heq => ?_
                simp only [unbound, heq]
          · split
            · have hmembers := ihmembers (member path name) [] issued issued'
              generalize compile types members (member path name) [] issued = result at *
              generalize compile types' members (member path name) [] issued' = result' at *
              obtain ⟨e, k⟩ := result
              obtain ⟨e', k'⟩ := result'
              rcases cases_of_map_unbound hmembers with ⟨_, rfl, rfl⟩ | ⟨_, _, rfl, rfl, hinner⟩
              · rfl
              · refine map_unbound_congr (ih _ _ _ _) fun layout layout' heq => ?_
                simp only [unbound, heq, hinner]
            · split
              · have helement := ihmembers (elements (member path name)) [] (issued + 1)
                  (issued' + 1)
                generalize compile types members (elements (member path name)) [] (issued + 1) =
                  result at *
                generalize compile types' members (elements (member path name)) [] (issued' + 1) =
                  result' at *
                obtain ⟨e, k⟩ := result
                obtain ⟨e', k'⟩ := result'
                rcases cases_of_map_unbound helement with ⟨_, rfl, rfl⟩ | ⟨_, _, rfl, rfl, hinner⟩
                · rfl
                · refine map_unbound_congr (ih _ _ _ _) fun layout layout' heq => ?_
                  simp only [unbound, heq, hinner]
              · rfl

end Compile

end Layout

namespace Codec

-- What a codec does, whatever name and version it shows.
def form (codec : Codec) : Layout :=
  codec.layout.unbound

variable {codec other : Codec}

theorem decode_congr (h : codec.form = other.form) : codec.decode = other.decode := by
  funext b k
  have hread : codec.layout.read b k = other.layout.read b k := by
    rw [← Layout.read_unbound, ← Layout.read_unbound other.layout]
    exact congrArg (fun layout : Layout => layout.read b k) h
  simp only [decode, decodeFrom, hread]

theorem measure_congr (h : codec.form = other.form) : codec.measure = other.measure := by
  funext value
  have hmeasure : ∀ entries, codec.layout.measure entries [] = other.layout.measure entries [] := by
    intro entries
    rw [← Layout.measure_unbound, ← Layout.measure_unbound other.layout]
    exact congrArg (fun layout : Layout => layout.measure entries []) h
  simp only [measure, hmeasure]

theorem encode_congr (h : codec.form = other.form) : codec.encode = other.encode := by
  funext value k
  have hwrite : ∀ cursor entries,
      codec.layout.write cursor entries [] = other.layout.write cursor entries [] := by
    intro cursor entries
    rw [← Layout.write_unbound, ← Layout.write_unbound other.layout]
    exact congrArg (fun layout : Layout => layout.write cursor entries []) h
  simp only [encode, measure_congr h, hwrite]

end Codec

namespace TypeSet

theorem map_form_codec (set : TypeSet) (fields : FieldList) (name version : Value) :
    (set.codec fields name version).1.map Codec.form =
      (set.compile fields).1.map Layout.unbound := by
  simp only [codec]
  cases (set.compile fields).1 <;> rfl

-- The types alone decide what a definition compiles to.
theorem codec_congr {set set' : TypeSet} (h : set.types = set'.types) (fields : FieldList)
    (name version name' version' : Value) :
    (set.codec fields name version).1.map Codec.form =
      (set'.codec fields name' version').1.map Codec.form := by
  rw [map_form_codec, map_form_codec]
  exact Layout.compile_unbound h fields [] [] set.issued set'.issued

-- Compiling hands out names and leaves the types as they are.
theorem types_codec (set : TypeSet) (fields : FieldList) (name version : Value) :
    (set.codec fields name version).2.types = set.types := rfl

theorem types_codecOfText (set : TypeSet) (t : Text) : (set.codecOfText t).2.types = set.types := by
  unfold codecOfText
  cases Definition.ofText t <;> rfl

end TypeSet

end PacketCodec
