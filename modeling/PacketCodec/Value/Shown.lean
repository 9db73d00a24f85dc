import PacketCodec.Number.Shortest
import PacketCodec.Text.Quoted
import PacketCodec.Value.Basic

namespace PacketCodec

namespace Value

mutual

-- Texts and bytes are quoted, containers are written with their contents.
def quoted : Value → Text
  | null => "None"
  | bool true => "True"
  | bool false => "False"
  | int n => Text.ofInt n
  | double x => x.text
  | text t => t.quoted
  | bytes b => Text.quotedBytes b
  | list items => Text.join ["[", Text.joinWith ", " (quotedItems items), "]"]
  | tuple items =>
    Text.join ["(", Text.joinWith ", " (quotedItems items), if items.length = 1 then ",)" else ")"]
  | record entries =>
    Text.join ["\x7b", Text.joinWith ", " (quotedEntries entries), "\x7d"]

def quotedItems : List Value → List Text
  | [] => []
  | item :: rest => quoted item :: quotedItems rest

def quotedEntries : List (Text × Value) → List Text
  | [] => []
  | (key, value) :: rest => Text.join [key.quoted, ": ", quoted value] :: quotedEntries rest

end

-- A text is shown as it is, every other value as inside a container.
def shown : Value → Text
  | text t => t
  | value => value.quoted

mutual

-- Whether a value can be shown: it is or holds no number that cannot be written.
def isShowable : Value → Bool
  | int n => Text.isWritable n
  | list items | tuple items => areShowable items
  | record entries => entriesAreShowable entries
  | _ => true

def areShowable : List Value → Bool
  | [] => true
  | item :: rest => isShowable item && areShowable rest

def entriesAreShowable : List (Text × Value) → Bool
  | [] => true
  | (_, value) :: rest => isShowable value && entriesAreShowable rest

end

end Value

end PacketCodec
