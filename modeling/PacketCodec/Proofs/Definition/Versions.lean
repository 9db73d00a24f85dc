import Mathlib.Data.Set.List
import PacketCodec.Files.Load
import PacketCodec.Proofs.Definition.LookUp

namespace PacketCodec

namespace DefinitionTable

inductive Filled : DefinitionTable → Prop
  | empty : Filled empty
  | loaded {table : DefinitionTable} {tree : FileTree} {directory : Path}
      (h : (load tree directory).1 = .ok table) : Filled table
  | add {table : DefinitionTable} (h : Filled table) (name : Value) (version : Int)
      (fields : FieldList) : Filled (table.add name (.int version) fields).2
  | addText {table : DefinitionTable} (h : Filled table) (name : Value) (version : Int)
      (t : Text) : Filled (table.addText name (.int version) t).2
  | freeze {table : DefinitionTable} (h : Filled table) : Filled table.freeze

variable {table : DefinitionTable} {p : Value → Prop} {name version : Value} {fields : FieldList}

section Load

variable {tree : FileTree} {directory : Path}

theorem EachVersion.addFile (h : table.EachVersion p) (tree : FileTree) (path : Path) (name : Text)
    {version : Nat} (hversion : p (.int version)) :
    (table.addFile tree path name version).2.EachVersion p := by
  unfold DefinitionTable.addFile
  split
  next t _ => exact h.addText (.text name) hversion t
  · exact h

-- Every file is added under the digits in its name.
theorem EachVersion.addFiles (h : table.EachVersion p) (hdigits : ∀ n : Nat, p (.int n))
    (fileNames : List Text) : (table.addFiles tree directory fileNames).1.EachVersion p := by
  induction fileNames generalizing table with
  | nil => exact h
  | cons fileName rest ih =>
      rw [DefinitionTable.addFiles]
      split
      · exact ih h
      next name version _ =>
        have hfile := h.addFile tree ⟨directory.slashes, directory.parts ++ [fileName]⟩ name
          (hdigits version)
        dsimp only
        generalize table.addFile tree _ name version = added at hfile ⊢
        obtain ⟨_ | _, table⟩ := added <;> exact ih hfile

theorem eachVersion_load (hdigits : ∀ n : Nat, p (.int n))
    (h : (load tree directory).1 = .ok table) : table.EachVersion p := by
  unfold load at h
  split at h
  next names _ =>
    cases h
    have hempty : empty.EachVersion p := by simp [EachVersion, empty]
    exact hempty.addFiles hdigits _
  · contradiction
  · contradiction

end Load

theorem Filled.eachVersion_int (h : table.Filled) :
    table.EachVersion (· ∈ Set.range Value.int) := by
  induction h with
  | empty => simp [EachVersion, DefinitionTable.empty]
  | loaded h => exact eachVersion_load (fun n => Set.mem_range_self _) h
  | add _ name version fields ih => exact ih.add name (Set.mem_range_self version) fields
  | addText _ name version t ih => exact ih.addText name (Set.mem_range_self version) t
  | freeze _ ih => exact ih

section Keys

variable {n : Int} {rest : List Int}

theorem versions_of_keys (hname : name.key = .ok name) {ns : List Int}
    (hkeys : (table.packet name).keys = ns.map .int) :
    table.versions name = .ok ((ns.mergeSort fun m n => m ≤ n).map .int) := by
  rw [versions, hname, mapError_ok, ok_bind, hkeys, Value.sorted_int, mapError_ok]

theorem latest_of_keys (hname : name.key = .ok name)
    (hkeys : (table.packet name).keys = (n :: rest).map .int) :
    table.latest name = .ok (.int (rest.foldl max n)) := by
  rw [latest, hname, mapError_ok, ok_bind, hkeys, List.map_cons]
  simp only [Value.greatest_int, mapError_ok]

theorem max?_mergeSort (n : Int) (rest : List Int) :
    ((n :: rest).mergeSort fun m n => m ≤ n).max? = some (rest.foldl max n) := by
  have hmax : (n :: rest).max? = some (rest.foldl max n) := List.max?_cons'
  obtain ⟨hmem, hbound⟩ := List.max?_eq_some_iff.mp hmax
  exact List.max?_eq_some_iff.mpr
    ⟨List.mem_mergeSort.mpr hmem, fun m hm => hbound m (List.mem_mergeSort.mp hm)⟩

end Keys

-- A packet that has a definition has a highest version, which is the greatest of
-- all its versions.
theorem Filled.exists_latest (h : table.Filled) (hget : table.get name version = .ok fields) :
    ∃ (versions : List Int) (n : Int), table.versions name = .ok (versions.map .int) ∧
      versions.max? = some n ∧ table.latest name = .ok (.int n) := by
  obtain ⟨hname, -, packet, hpacket, hfound⟩ := get_eq_ok_iff.mp hget
  have hown : table.packet name = packet := by rw [DefinitionTable.packet, hpacket]; rfl
  have hints : packet.keys ∈ Set.range (List.map Value.int) := by
    rw [Set.range_list_map]
    intro key hkey
    obtain ⟨entry, hentry, rfl⟩ := List.mem_map.mp hkey
    exact h.eachVersion_int.packet name entry (hown ▸ hentry)
  obtain ⟨ns, hkeys⟩ := hints
  obtain ⟨own, hmem⟩ := Keyed.mem_of_get? hfound
  cases ns with
  | nil =>
      rw [List.map_nil, eq_comm, Keyed.keys, List.map_eq_nil_iff] at hkeys
      rw [hkeys] at hmem
      contradiction
  | cons n rest =>
      rw [← hown, eq_comm] at hkeys
      exact ⟨_, _, versions_of_keys hname hkeys, max?_mergeSort n rest, latest_of_keys hname hkeys⟩

end DefinitionTable

end PacketCodec
