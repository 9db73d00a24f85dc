import PacketCodec.Layout.Basic

namespace PacketCodec

namespace Layout

-- The entries of a record. Null stands for an empty one.
def entriesOf (value : Value) (path : Text) : Except Misfit (List (Text × Value)) :=
  match value with
  | .null => .ok []
  | .record entries => .ok entries
  | _ => .error ⟨.notRecord value.kind, if path = [] then .null else .text path⟩

-- The elements of a list or a tuple. Null stands for an empty one.
def itemsOf (value : Value) (path : Text) : Except Misfit (List Value) :=
  let bounded (items : List Value) : Except Misfit (List Value) :=
    if maxElements < items.length then .error ⟨.tooManyElements items.length, .text path⟩
    else .ok items
  match value with
  | .null => .ok []
  | .list items | .tuple items => bounded items
  | _ => .error ⟨.notSequence value.kind, .text path⟩

-- The sum of the sizes of elements, added to the size of those before them.
def measureEach (measure : Value → Text → Except Misfit Nat) (path : Text) :
    List Value → (i size : Nat) → Except Misfit Nat
  | [], _, size => .ok size
  | item :: rest, i, size =>
    match measure item (element path i) with
    | .error e => .error e
    | .ok n => measureEach measure path rest (i + 1) (size + n)

-- The size of the members of a layout on the wire.
def measure : Layout → (entries : List (Text × Value)) → (path : Text) → Except Misfit Nat
  | nil, _, _ => .ok 0
  | scalar name _ wire rest, entries, path => do
    let size ← wire.measure (lookUp entries name) (.text (member path name))
    return size + (← rest.measure entries path)
  | object name members rest, entries, path => do
    let inner ← entriesOf (lookUp entries name) (member path name)
    let size ← members.measure inner (member path name)
    return size + (← rest.measure entries path)
  | array name _ element rest, entries, path => do
    let items ← itemsOf (lookUp entries name) (member path name)
    let size ←
      measureEach (fun item path => do element.measure (← entriesOf item path) path)
        (member path name) items 0 2
    return size + (← rest.measure entries path)

-- Writes elements one after the other.
def writeEach (write : WriteCursor → Value → Text → Except WriteFault WriteCursor) (path : Text) :
    List Value → (i : Nat) → WriteCursor → Except WriteFault WriteCursor
  | [], _, cursor => .ok cursor
  | item :: rest, i, cursor =>
    match write cursor item (element path i) with
    | .error e => .error e
    | .ok cursor => writeEach write path rest (i + 1) cursor

-- Writes the members of a layout at the cursor.
def write : Layout → WriteCursor → (entries : List (Text × Value)) → (path : Text) →
    Except WriteFault WriteCursor
  | nil, cursor, _, _ => .ok cursor
  | scalar name _ wire rest, cursor, entries, path => do
    let cursor ← wire.write cursor (lookUp entries name) (.text (member path name))
    rest.write cursor entries path
  | object name members rest, cursor, entries, path => do
    let inner ← (entriesOf (lookUp entries name) (member path name)).mapError .misfit
    let cursor ← members.write cursor inner (member path name)
    rest.write cursor entries path
  | array name _ element rest, cursor, entries, path => do
    let items ← (itemsOf (lookUp entries name) (member path name)).mapError .misfit
    let cursor ←
      (WireType.number countType).write cursor (.int items.length) (.text (member path name))
    let cursor ←
      writeEach
        (fun cursor item path => do
          element.write cursor (← (entriesOf item path).mapError .misfit) path)
        (member path name) items 0 cursor
    rest.write cursor entries path

end Layout

end PacketCodec
