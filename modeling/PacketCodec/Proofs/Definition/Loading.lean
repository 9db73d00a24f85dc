import PacketCodec.Proofs.Definition.Insertion
import PacketCodec.Proofs.Files.FileName
import PacketCodec.Proofs.Files.Listing
import PacketCodec.Proofs.Files.Tree
import PacketCodec.Proofs.Text.Blank

namespace PacketCodec

-- A file in a directory.
def Path.entry (directory : Path) (fileName : Text) : Path :=
  ⟨directory.slashes, directory.parts ++ [fileName]⟩

namespace FileTree

-- The definition in a file.
def readDefinition (tree : FileTree) (path : Path) : Except Failure FieldList :=
  match tree.readText path with
  | .ok t => (Definition.ofText t).mapError GrammarError.failure
  | .error e => .error e.failure

-- A file that can be read, holds UTF-8 and is a definition.
def Defines (tree : FileTree) (path : Path) (fields : FieldList) : Prop :=
  ∃ content t, tree.find path = .ok (.file content) ∧ Utf8.decode? content = some t ∧
    Definition.ofText t.withLineFeeds = .ok fields

-- What is no such file, and what is reported about it.
inductive Spoiled (tree : FileTree) (path : Path) : Failure → Prop
  | fault {fault : FileFault} (h : tree.find path = .error fault) :
      Spoiled tree path (ReadError.file fault).failure
  | directory {names : List Text} (h : tree.find path = .ok (.directory names)) :
      Spoiled tree path (ReadError.file .isDirectory).failure
  | undecodable (h : tree.Undecodable path) : Spoiled tree path ReadError.undecodable.failure
  | malformed {content : List UInt8} {t : Text} {e : GrammarError}
      (hfind : tree.find path = .ok (.file content)) (hdecode : Utf8.decode? content = some t)
      (h : Definition.ofText t.withLineFeeds = .error e) : Spoiled tree path e.failure

variable {tree : FileTree} {path : Path} {fields : FieldList} {reason : Failure}

theorem readDefinition_of_decode {content : List UInt8} {t : Text}
    (hfind : tree.find path = .ok (.file content)) (hdecode : Utf8.decode? content = some t) :
    tree.readDefinition path =
      (Definition.ofText t.withLineFeeds).mapError GrammarError.failure := by
  simp only [readDefinition, readText, hfind, hdecode, Definition.ofText, Text.lines_withLineFeeds]

theorem readDefinition_of_spoiled (h : tree.Spoiled path reason) :
    tree.readDefinition path = .error reason := by
  cases h with
  | fault h => simp only [readDefinition, readText, h]
  | directory h => simp only [readDefinition, readText, h]
  | undecodable h => simp only [readDefinition, readText_undecodable_iff.mpr h]
  | malformed hfind hdecode h => rw [readDefinition_of_decode hfind hdecode, h, mapError_error]

theorem readDefinition_of_defines (h : tree.Defines path fields) :
    tree.readDefinition path = .ok fields := by
  obtain ⟨content, t, hfind, hdecode, h⟩ := h
  rw [readDefinition_of_decode hfind hdecode, h, mapError_ok]

-- A file is a definition, or it is reported what is wrong with it.
theorem defines_or_spoiled (tree : FileTree) (path : Path) :
    (∃ fields, tree.Defines path fields) ∨ ∃ reason, tree.Spoiled path reason := by
  cases hfind : tree.find path with
  | error fault => exact .inr ⟨_, .fault hfind⟩
  | ok node =>
      cases node with
      | directory names => exact .inr ⟨_, .directory hfind⟩
      | file content =>
          cases hdecode : Utf8.decode? content with
          | none => exact .inr ⟨_, .undecodable ⟨content, hfind, hdecode⟩⟩
          | some t =>
              cases h : Definition.ofText t.withLineFeeds with
              | error e => exact .inr ⟨_, .malformed hfind hdecode h⟩
              | ok fields => exact .inl ⟨fields, content, t, hfind, hdecode, h⟩

theorem readDefinition_eq_ok_iff :
    tree.readDefinition path = .ok fields ↔ tree.Defines path fields := by
  refine ⟨fun h => ?_, readDefinition_of_defines⟩
  rcases tree.defines_or_spoiled path with ⟨_, hdefines⟩ | ⟨_, hspoiled⟩
  · rw [readDefinition_of_defines hdefines] at h
    cases h
    exact hdefines
  · rw [readDefinition_of_spoiled hspoiled] at h
    contradiction

theorem readDefinition_eq_error_iff :
    tree.readDefinition path = .error reason ↔ tree.Spoiled path reason := by
  refine ⟨fun h => ?_, readDefinition_of_spoiled⟩
  rcases tree.defines_or_spoiled path with ⟨_, hdefines⟩ | ⟨_, hspoiled⟩
  · rw [readDefinition_of_defines hdefines] at h
    contradiction
  · rw [readDefinition_of_spoiled hspoiled] at h
    cases h
    exact hspoiled

end FileTree

namespace DefinitionTable

-- What a file in a directory adds to a table, and what it adds to the log.
def definition? (tree : FileTree) (directory : Path) (fileName : Text) : Option Titled :=
  match fileKey? fileName, tree.readDefinition (directory.entry fileName) with
  | some (name, version), .ok fields => some ⟨name, version, fields⟩
  | _, _ => none

def skipped? (tree : FileTree) (directory : Path) (fileName : Text) : Option LogEntry :=
  match fileKey? fileName, tree.readDefinition (directory.entry fileName) with
  | some (name, version), .error reason => some (.definitionSkipped name version reason)
  | _, _ => none

-- The definitions in a directory and what is skipped, in the order in which the
-- files are read.
def definitionsIn (tree : FileTree) (directory : Path) (names : List Text) : List Titled :=
  (names.mergeSort Text.le).filterMap (definition? tree directory)

def skippedIn (tree : FileTree) (directory : Path) (names : List Text) : List LogEntry :=
  (names.mergeSort Text.le).filterMap (skipped? tree directory)

variable {tree : FileTree} {directory path : Path} {fileName name : Text} {names : List Text}
  {version : Nat} {table : DefinitionTable} {fields : FieldList} {reason : Failure}

section Steps

theorem definition?_eq_some_iff {definition : Titled} :
    definition? tree directory fileName = some definition ↔
      IsFileOf definition.name definition.version fileName ∧
        tree.Defines (directory.entry fileName) definition.fields := by
  obtain ⟨name, version, fields⟩ := definition
  rw [← fileKey?_eq_some_iff, ← FileTree.readDefinition_eq_ok_iff, definition?]
  cases fileKey? fileName with
  | none => simp
  | some key =>
      cases tree.readDefinition (directory.entry fileName) with
      | ok fields => simp [Prod.ext_iff, and_assoc]
      | error reason => simp

theorem skipped?_eq_some_iff {entry : LogEntry} :
    skipped? tree directory fileName = some entry ↔
      ∃ name version reason, IsFileOf name version fileName ∧
        tree.Spoiled (directory.entry fileName) reason ∧
        entry = .definitionSkipped name version reason := by
  simp only [← fileKey?_eq_some_iff, ← FileTree.readDefinition_eq_error_iff, skipped?]
  cases fileKey? fileName with
  | none => simp
  | some key =>
      cases tree.readDefinition (directory.entry fileName) with
      | ok fields => simp
      | error reason => simp [Prod.ext_iff, eq_comm]

theorem addFile_ok (hopen : table.frozen = false) (h : tree.readDefinition path = .ok fields) :
    table.addFile tree path name version =
      (.ok (), table.insertTitled ⟨name, version, fields⟩) := by
  unfold FileTree.readDefinition at h
  unfold addFile
  cases hread : tree.readText path with
  | error e =>
      rw [hread] at h
      contradiction
  | ok t =>
      simp only [hread] at h
      cases hparse : Definition.ofText t with
      | error e =>
          rw [hparse] at h
          contradiction
      | ok parsed =>
          rw [hparse, mapError_ok] at h
          cases h
          simp only [addText, hopen, Bool.false_eq_true, if_false, hparse, add]
          rfl

theorem addFile_error (hopen : table.frozen = false)
    (h : tree.readDefinition path = .error reason) :
    table.addFile tree path name version = (.error reason, table) := by
  unfold FileTree.readDefinition at h
  unfold addFile
  cases hread : tree.readText path with
  | error e =>
      rw [hread] at h
      cases h
      rfl
  | ok t =>
      simp only [hread] at h
      cases hparse : Definition.ofText t with
      | ok parsed =>
          rw [hparse, mapError_ok] at h
          contradiction
      | error e =>
          rw [hparse, mapError_error] at h
          cases h
          simp only [addText, hopen, Bool.false_eq_true, if_false, hparse]
          rfl

-- Every file adds its definition to the table or its failure to the log, and
-- nothing else.
theorem addFiles_eq (hopen : table.frozen = false) (fileNames : List Text) :
    table.addFiles tree directory fileNames =
      ((fileNames.filterMap (definition? tree directory)).foldl insertTitled table,
        fileNames.filterMap (skipped? tree directory)) := by
  induction fileNames generalizing table with
  | nil => rfl
  | cons fileName rest ih =>
      rw [addFiles, List.filterMap_cons, List.filterMap_cons]
      cases hkey : fileKey? fileName with
      | none => simp only [definition?, skipped?, hkey, ih hopen]
      | some key =>
          obtain ⟨name, version⟩ := key
          cases hread : tree.readDefinition (directory.entry fileName) with
          | ok fields =>
              have hadd : table.addFile tree
                  ⟨directory.slashes, directory.parts ++ [fileName]⟩ name version = _ :=
                addFile_ok hopen hread
              simp only [hadd, definition?, skipped?, hkey, hread]
              exact ih hopen
          | error reason =>
              have hadd : table.addFile tree
                  ⟨directory.slashes, directory.parts ++ [fileName]⟩ name version = _ :=
                addFile_error hopen hread
              simp only [hadd, definition?, skipped?, hkey, hread, ih hopen]

end Steps

section Load

theorem load_of_directory (h : tree.find directory = .ok (.directory names)) :
    load tree directory =
      (.ok (ofTitled (definitionsIn tree directory names)).freeze,
        skippedIn tree directory names ++
          [.definitionsLoaded (ofTitled (definitionsIn tree directory names)).count directory
            (skippedIn tree directory names).length]) := by
  have hfiles : empty.addFiles tree directory (names.mergeSort Text.le) =
      (ofTitled (definitionsIn tree directory names), skippedIn tree directory names) :=
    addFiles_eq rfl (names.mergeSort Text.le)
  simp only [load, h, hfiles]

-- A file among those of a directory that holds a definition of a packet.
def Provides (tree : FileTree) (directory : Path) (name : Text) (version : Int) (fileName : Text)
    (fields : FieldList) : Prop :=
  ∃ n : Nat, version = n ∧ IsFileOf name n fileName ∧ tree.Defines (directory.entry fileName) fields

theorem provides_iff {version : Int} :
    Provides tree directory name version fileName fields ↔
      ∃ n : Nat, version = n ∧ definition? tree directory fileName = some ⟨name, n, fields⟩ := by
  simp only [Provides, definition?_eq_some_iff]

-- Of several files that hold a definition of one version, the last one counts.
theorem get_definitionsIn_iff {version : Int} :
    (ofTitled (definitionsIn tree directory names)).get (.text name) (.int version) = .ok fields ↔
      ∃ before fileName after, names.mergeSort Text.le = before ++ fileName :: after ∧
        Provides tree directory name version fileName fields ∧
        ∀ later ∈ after, ∀ fields', ¬Provides tree directory name version later fields' := by
  rw [get_ofTitled_iff]
  constructor
  · rintro ⟨n, before, after, rfl, hsplit, hafter⟩
    obtain ⟨names₁, names₂, hnames, -, htail⟩ := List.filterMap_eq_append_iff.mp hsplit
    obtain ⟨names₃, fileName, names₄, rfl, -, hfile, rfl⟩ := List.filterMap_eq_cons_iff.mp htail
    refine ⟨names₁ ++ names₃, fileName, names₄, by rw [hnames, List.append_assoc],
      provides_iff.mpr ⟨n, rfl, hfile⟩, fun later hlater fields' hprovides => ?_⟩
    obtain ⟨m, hm, hdefinition⟩ := provides_iff.mp hprovides
    rw [Int.natCast_inj] at hm
    exact hafter _ (List.mem_filterMap.mpr ⟨later, hlater, hdefinition⟩) (by rw [hm]; rfl)
  · rintro ⟨before, fileName, after, hnames, hprovides, hafter⟩
    obtain ⟨n, rfl, hfile⟩ := provides_iff.mp hprovides
    refine ⟨n, before.filterMap (definition? tree directory),
      after.filterMap (definition? tree directory), rfl, ?_, fun definition hmem hkey => ?_⟩
    · rw [definitionsIn, hnames, List.filterMap_append, List.filterMap_cons, hfile]
    · obtain ⟨later, hlater, hdefinition⟩ := List.mem_filterMap.mp hmem
      obtain ⟨name', version', fields'⟩ := definition
      cases hkey
      exact hafter later hlater fields' (provides_iff.mpr ⟨_, rfl, hdefinition⟩)

theorem exists_get_definitionsIn_iff {version : Int} :
    (∃ fields, (ofTitled (definitionsIn tree directory names)).get (.text name) (.int version) =
      .ok fields) ↔
      ∃ fileName ∈ names, ∃ fields, Provides tree directory name version fileName fields := by
  constructor
  · rintro ⟨fields, hget⟩
    obtain ⟨before, fileName, after, hnames, hprovides, -⟩ := get_definitionsIn_iff.mp hget
    have hmem : fileName ∈ names.mergeSort Text.le := by
      rw [hnames]
      exact List.mem_append_right before List.mem_cons_self
    exact ⟨fileName, List.mem_mergeSort.mp hmem, fields, hprovides⟩
  · rintro ⟨fileName, hmem, fields, hprovides⟩
    obtain ⟨n, rfl, hfile⟩ := provides_iff.mp hprovides
    have hdefinition : ⟨name, n, fields⟩ ∈ definitionsIn tree directory names :=
      List.mem_filterMap.mpr ⟨fileName, List.mem_mergeSort.mpr hmem, hfile⟩
    have hcontains := contains_ofTitled.mpr (List.mem_map_of_mem (f := Titled.key) hdefinition)
    rw [← Keyed.isSome_get?] at hcontains
    obtain ⟨found, hfound⟩ := Option.isSome_iff_exists.mp hcontains
    exact ⟨found, (get_eq_ok_iff_packet rfl rfl).mpr hfound⟩

-- The definitions stay the same if files are left out that hold none.
theorem definitionsIn_eq {tree' : FileTree} {names' : List Text} (hnames : names.Nodup)
    (hnames' : names'.Nodup) (hsubset : names' ⊆ names)
    (hread : ∀ fileName ∈ names', tree'.readText (directory.entry fileName) =
      tree.readText (directory.entry fileName))
    (hleft : ∀ fileName ∈ names, fileName ∉ names' →
      ∃ reason, tree.Spoiled (directory.entry fileName) reason) :
    definitionsIn tree' directory names' = definitionsIn tree directory names := by
  rw [definitionsIn, definitionsIn, Text.mergeSort_filter hnames hnames' hsubset,
    List.filterMap_filter]
  refine List.filterMap_congr fun fileName hmem => ?_
  by_cases hkept : fileName ∈ names'
  · simp only [hkept, decide_true, if_true, definition?, FileTree.readDefinition,
      hread fileName hkept]
  · obtain ⟨reason, hspoiled⟩ := hleft fileName (List.mem_mergeSort.mp hmem) hkept
    have hnone : definition? tree directory fileName = none := by
      rw [definition?, FileTree.readDefinition_of_spoiled hspoiled]
      cases fileKey? fileName <;> rfl
    simp only [hkept, decide_false, Bool.false_eq_true, if_false, hnone]

-- Loading a directory never fails. A definition is found if and only if a file of
-- its name and version holds one, and it is that of the last such file. Every
-- definition file that holds none is reported, in the order of the names, and for
-- the table it is as if it were not there.
theorem load_isolated (h : tree.find directory = .ok (.directory names)) :
    ∃ (table : DefinitionTable) (sorted : List Text),
      sorted.Perm names ∧ (sorted.Pairwise fun s t => Text.le s t = true) ∧
      load tree directory =
        (.ok table,
          sorted.filterMap (skipped? tree directory) ++
            [.definitionsLoaded table.count directory
              (sorted.filterMap (skipped? tree directory)).length]) ∧
      (∀ fileName name version, IsFileOf name version fileName ↔
        (filePattern.fullMatch? fileName).map keyOfGroups = some (name, version)) ∧
      (∀ fileName entry, skipped? tree directory fileName = some entry ↔
        ∃ name version reason, IsFileOf name version fileName ∧
          tree.Spoiled (directory.entry fileName) reason ∧
          entry = .definitionSkipped name version reason) ∧
      table.frozen = true ∧
      (∀ name version, (∃ fields, table.get (.text name) (.int version) = .ok fields) ↔
        ∃ fileName ∈ names, ∃ fields, Provides tree directory name version fileName fields) ∧
      (∀ name version fields, table.get (.text name) (.int version) = .ok fields ↔
        ∃ before fileName after, sorted = before ++ fileName :: after ∧
          Provides tree directory name version fileName fields ∧
          ∀ later ∈ after, ∀ fields', ¬Provides tree directory name version later fields') ∧
      ∀ tree' names', tree'.find directory = .ok (.directory names') → names' ⊆ names →
        (∀ fileName ∈ names', tree'.readText (directory.entry fileName) =
          tree.readText (directory.entry fileName)) →
        (∀ fileName ∈ names, fileName ∉ names' →
          ∃ reason, tree.Spoiled (directory.entry fileName) reason) →
        (load tree' directory).1 = .ok table := by
  refine ⟨(ofTitled (definitionsIn tree directory names)).freeze, names.mergeSort Text.le,
    List.mergeSort_perm .., Text.pairwise_mergeSort names, load_of_directory h,
    fun _ _ _ => fullMatch?_filePattern_eq_some_iff.symm, fun _ _ => skipped?_eq_some_iff, rfl, fun _ _ => exists_get_definitionsIn_iff,
    fun _ _ _ => get_definitionsIn_iff, fun tree' names' h' hsubset hread hleft => ?_⟩
  rw [load_of_directory h', definitionsIn_eq (FileTree.nodup_of_find h) (FileTree.nodup_of_find h')
    hsubset hread hleft]

-- A directory with a definition and a file that is no text.
def halfBroken : FileTree where
  files := [(["data", "a.1.def"], [0x62, 0x79, 0x74, 0x65, 0x20, 0x78]),
    (["data", "a.2.def"], [0xFF])]
  directories := []

theorem find_halfBroken :
    halfBroken.find ⟨0, ["data"]⟩ = .ok (.directory ["a.1.def", "a.2.def"]) := rfl

theorem load_isolated_halfBroken :
    ∃ table fields, (load halfBroken ⟨0, ["data"]⟩).1 = .ok table ∧ table.frozen = true ∧
      table.get (.text "a") (.int 1) = .ok fields ∧
      ∀ fields, table.get (.text "a") (.int 2) ≠ .ok fields := by
  obtain ⟨table, sorted, -, -, hload, -, -, hfrozen, hexists, -, -⟩ := load_isolated find_halfBroken
  have hname : fileKey? "a.1.def" = some (Text.ofString "a", 1) := rfl
  have hread : halfBroken.readDefinition (Path.entry ⟨0, ["data"]⟩ "a.1.def") =
      .ok (.leaf "x" "byte" .nil) := rfl
  obtain ⟨fields, hget⟩ := (hexists "a" 1).mpr ⟨"a.1.def", List.mem_cons_self, _, 1, rfl,
    fileKey?_eq_some_iff.mp hname, FileTree.readDefinition_eq_ok_iff.mp hread⟩
  refine ⟨table, fields, by rw [hload], hfrozen, hget, fun fields hget' => ?_⟩
  obtain ⟨fileName, hmem, fields', n, hversion, hfile, hdefines⟩ := (hexists "a" 2).mp ⟨_, hget'⟩
  have hkey := fileKey?_eq_some_iff.mpr hfile
  have hfields := FileTree.readDefinition_eq_ok_iff.mpr hdefines
  rcases List.mem_pair.mp hmem with rfl | rfl
  · rw [hname] at hkey
    cases hkey
    exact absurd hversion (by decide)
  · have hbroken : halfBroken.readDefinition (Path.entry ⟨0, ["data"]⟩ "a.2.def") =
        .error FileTree.ReadError.undecodable.failure := rfl
    rw [hbroken] at hfields
    cases hfields

end Load

section Accounts

-- The names of definition files among those in a directory.
def definitionFiles (names : List Text) : List Text :=
  names.filter fun fileName => IsDefinitionFile fileName

-- A file that is skipped and logged, and one whose definition is found.

def Reported (tree : FileTree) (directory : Path) (skipped : List LogEntry) (name : Text)
    (version : Nat) (fileName : Text) : Prop :=
  ∃ reason, tree.Spoiled (directory.entry fileName) reason ∧
    .definitionSkipped name version reason ∈ skipped

def Found (tree : FileTree) (directory : Path) (table : DefinitionTable) (name : Text)
    (version : Nat) (fileName : Text) : Prop :=
  ∃ fields, tree.Defines (directory.entry fileName) fields ∧
    table.get (.text name) (.int version) = .ok fields

-- Every definition file is either read or skipped.
theorem length_definitionFiles (tree : FileTree) (directory : Path) (names : List Text) :
    (definitionFiles names).length =
      (definitionsIn tree directory names).length + (skippedIn tree directory names).length := by
  have hsorted : (definitionFiles names).length =
      (definitionFiles (names.mergeSort Text.le)).length :=
    ((List.mergeSort_perm names Text.le).filter _).length_eq.symm
  rw [hsorted, definitionsIn, skippedIn]
  induction names.mergeSort Text.le with
  | nil => rfl
  | cons fileName rest ih =>
      rw [definitionFiles] at ih ⊢
      rw [List.filter_cons, List.filterMap_cons, List.filterMap_cons, definition?, skipped?]
      by_cases hfile : IsDefinitionFile fileName
      · obtain ⟨key, hkey⟩ := Option.isSome_iff_exists.mp (isSome_fileKey?_iff.mpr hfile)
        rw [hkey, if_pos (decide_eq_true hfile), List.length_cons, ih]
        cases tree.readDefinition (directory.entry fileName) with
        | ok fields => exact Nat.add_right_comm ..
        | error reason => rfl
      · have hkey : fileKey? fileName = none := by
          rw [← Option.not_isSome_iff_eq_none, isSome_fileKey?_iff]
          exact hfile
        rw [hkey, if_neg (fun h => hfile (of_decide_eq_true h)), ih]

theorem reported_of_spoiled (hmem : fileName ∈ names) (hfile : IsFileOf name version fileName)
    (h : tree.Spoiled (directory.entry fileName) reason) :
    Reported tree directory (skippedIn tree directory names) name version fileName :=
  ⟨reason, h, List.mem_filterMap.mpr ⟨fileName, List.mem_mergeSort.mpr hmem,
    skipped?_eq_some_iff.mpr ⟨name, version, reason, hfile, h, rfl⟩⟩⟩

-- Where a file was read, the last file of its name and version is found.
theorem found_of_defines (hmem : fileName ∈ names) (hfile : IsFileOf name version fileName)
    (h : tree.Defines (directory.entry fileName) fields) :
    ∃ last ∈ names, Text.le fileName last = true ∧ IsFileOf name version last ∧
      Found tree directory (ofTitled (definitionsIn tree directory names)) name version last := by
  have hprovides : Provides tree directory name version fileName fields := ⟨version, rfl, hfile, h⟩
  obtain ⟨found, hget⟩ := exists_get_definitionsIn_iff.mpr ⟨fileName, hmem, fields, hprovides⟩
  obtain ⟨before, last, after, hnames, ⟨n, hversion, hlast, hdefines⟩, hafter⟩ :=
    get_definitionsIn_iff.mp hget
  rw [Int.natCast_inj] at hversion
  have hsorted := Text.pairwise_mergeSort names
  have hin : ∀ other, other ∈ before ++ last :: after ↔ other ∈ names := by
    intro other
    rw [← hnames, List.mem_mergeSort]
  rw [hnames] at hsorted
  refine ⟨last, (hin last).mp (by simp), ?_, hversion ▸ hlast, found, hdefines, hget⟩
  rcases List.mem_append.mp ((hin fileName).mpr hmem) with hbefore | hrest
  · exact (List.pairwise_append.mp hsorted).2.2 fileName hbefore last List.mem_cons_self
  · rcases List.mem_cons.mp hrest with rfl | hlater
    · exact Text.le_refl fileName
    · exact absurd hprovides (hafter fileName hlater fields)

-- Each definition in the table comes from one file of its name and version, and
-- so the numbers add up if no two files have these in common.
theorem nodup_keys (hnames : names.Nodup)
    (hunique : ∀ fileName ∈ names, ∀ other ∈ names, ∀ name version,
      IsFileOf name version fileName → IsFileOf name version other → fileName = other) :
    ((definitionsIn tree directory names).map Titled.key).Nodup := by
  rw [List.Nodup, List.pairwise_map, definitionsIn, List.pairwise_filterMap]
  have hsorted := (List.mergeSort_perm names Text.le).nodup_iff.mpr hnames
  refine List.Pairwise.imp_of_mem (fun {fileName other} hmem hmem' hne => ?_) hsorted
  intro definition hdefinition definition' hdefinition' hkey
  have hfile := (definition?_eq_some_iff.mp hdefinition).1
  have hother := (definition?_eq_some_iff.mp hdefinition').1
  rw [Titled.key, Titled.key, Prod.mk.injEq] at hkey
  rw [← hkey.1, ← hkey.2] at hother
  exact hne (hunique _ (List.mem_mergeSort.mp hmem) _ (List.mem_mergeSort.mp hmem') _ _
    hfile hother)

-- Every definition file is read or skipped, and those that are skipped are
-- logged. The table has one definition for each name and version among those
-- that were read, which is that of the last file. So the numbers add up if and
-- only if no two of them have these in common. Files can have them in common
-- whose versions are written with and without zeros in front.
theorem load_accounts (h : tree.find directory = .ok (.directory names)) :
    ∃ (table : DefinitionTable) (skipped : List LogEntry),
      load tree directory =
        (.ok table, skipped ++ [.definitionsLoaded table.count directory skipped.length]) ∧
      definitionFiles names = names.filter (fun fileName =>
        (filePattern.fullMatch? fileName).isSome) ∧
      (definitionFiles names).length =
        (definitionsIn tree directory names).length + skipped.length ∧
      table.count = ((definitionsIn tree directory names).map Titled.key).toFinset.card ∧
      ((definitionFiles names).length = table.count + skipped.length ↔
        ((definitionsIn tree directory names).map Titled.key).Nodup) ∧
      (∀ fileName ∈ names, ∀ name version, IsFileOf name version fileName →
        Reported tree directory skipped name version fileName ∨
          ∃ last ∈ names, Text.le fileName last = true ∧ IsFileOf name version last ∧
            Found tree directory table name version last) ∧
      ((∀ fileName ∈ names, ∀ other ∈ names, ∀ name version, IsFileOf name version fileName →
          IsFileOf name version other → fileName = other) →
        (definitionFiles names).length = table.count + skipped.length ∧
          ∀ fileName ∈ names, ∀ name version, IsFileOf name version fileName →
            Reported tree directory skipped name version fileName ∨
              Found tree directory table name version fileName) := by
  have hlength := length_definitionFiles tree directory names
  have hcount := count_ofTitled (definitionsIn tree directory names)
  have hnodup : (definitionFiles names).length =
      (ofTitled (definitionsIn tree directory names)).count +
        (skippedIn tree directory names).length ↔
      ((definitionsIn tree directory names).map Titled.key).Nodup := by
    have hcard : ((definitionsIn tree directory names).map Titled.key).toFinset.card =
        ((definitionsIn tree directory names).map Titled.key).length ↔
        ((definitionsIn tree directory names).map Titled.key).Nodup :=
      Multiset.toFinset_card_eq_card_iff_nodup
    rw [hlength, hcount, ← hcard, List.length_map]
    omega
  have hfiles : ∀ fileName ∈ names, ∀ name version, IsFileOf name version fileName →
      Reported tree directory (skippedIn tree directory names) name version fileName ∨
        ∃ last ∈ names, Text.le fileName last = true ∧ IsFileOf name version last ∧
          Found tree directory (ofTitled (definitionsIn tree directory names)) name version
            last := by
    intro fileName hmem name version hfile
    rcases tree.defines_or_spoiled (directory.entry fileName) with ⟨fields, h⟩ | ⟨reason, h⟩
    · exact .inr (found_of_defines hmem hfile h)
    · exact .inl (reported_of_spoiled hmem hfile h)
  have hmatch : definitionFiles names =
      names.filter fun fileName => (filePattern.fullMatch? fileName).isSome :=
    List.filter_congr fun fileName _ => Bool.eq_iff_iff.mpr
      (decide_eq_true_iff.trans isSome_fullMatch?_filePattern_iff.symm)
  refine ⟨_, _, load_of_directory h, hmatch, hlength, hcount, hnodup, hfiles, fun hunique =>
    ⟨hnodup.mpr (nodup_keys (FileTree.nodup_of_find h) hunique),
      fun fileName hmem name version hfile => ?_⟩⟩
  rcases hfiles fileName hmem name version hfile with hreported | ⟨last, hlast, -, hfile', hfound⟩
  · exact .inl hreported
  · rw [← hunique fileName hmem last hlast name version hfile hfile'] at hfound
    exact .inr hfound

theorem load_accounts_halfBroken :
    ∃ table skipped, load halfBroken ⟨0, ["data"]⟩ =
      (.ok table, skipped ++ [.definitionsLoaded table.count ⟨0, ["data"]⟩ skipped.length]) ∧
      2 = table.count + skipped.length := by
  obtain ⟨table, skipped, hload, -, -, -, -, -, hadds⟩ := load_accounts find_halfBroken
  have hkeys : ∀ fileName ∈ (["a.1.def", "a.2.def"] : List Text),
      ∀ other ∈ (["a.1.def", "a.2.def"] : List Text),
        fileKey? fileName = fileKey? other → fileName = other := by decide +kernel
  obtain ⟨hlength, -⟩ := hadds fun fileName hmem other hmem' name version hfile hother =>
    hkeys fileName hmem other hmem'
      ((fileKey?_eq_some_iff.mpr hfile).trans (fileKey?_eq_some_iff.mpr hother).symm)
  exact ⟨table, skipped, hload, hlength⟩

-- Two files of one version, one of them with a zero in front.
def zeros : FileTree where
  files := [(["data", "a.01.def"], [0x62, 0x79, 0x74, 0x65, 0x20, 0x78]),
    (["data", "a.1.def"], [0x69, 0x6E, 0x74, 0x31, 0x36, 0x20, 0x79])]
  directories := []

-- Of these the second one is found and the first one is lost, without an entry
-- in the log.
theorem load_zeros :
    zeros.find ⟨0, ["data"]⟩ = .ok (.directory ["a.01.def", "a.1.def"]) ∧
      (definitionFiles ["a.01.def", "a.1.def"]).length = 2 ∧
      ∃ table, load zeros ⟨0, ["data"]⟩ = (.ok table, [.definitionsLoaded 1 ⟨0, ["data"]⟩ 0]) ∧
        table.count = 1 ∧ IsFileOf "a" 1 "a.01.def" ∧
        zeros.Defines (Path.entry ⟨0, ["data"]⟩ "a.01.def") (.leaf "x" "byte" .nil) ∧
        table.get (.text "a") (.int 1) = .ok (.leaf "y" "int16" .nil) := by
  have hfind : zeros.find ⟨0, ["data"]⟩ = .ok (.directory ["a.01.def", "a.1.def"]) := rfl
  have hsorted : List.mergeSort (["a.01.def", "a.1.def"] : List Text) Text.le =
      ["a.01.def", "a.1.def"] := List.mergeSort_of_pairwise (by decide)
  have hdefinitions : definitionsIn zeros ⟨0, ["data"]⟩ ["a.01.def", "a.1.def"] =
      [⟨"a", 1, .leaf "x" "byte" .nil⟩, ⟨"a", 1, .leaf "y" "int16" .nil⟩] := by
    rw [definitionsIn, hsorted]
    rfl
  have hskipped : skippedIn zeros ⟨0, ["data"]⟩ ["a.01.def", "a.1.def"] = [] := by
    rw [skippedIn, hsorted]
    rfl
  have hname : fileKey? "a.01.def" = some (Text.ofString "a", 1) := rfl
  have hread : zeros.readDefinition (Path.entry ⟨0, ["data"]⟩ "a.01.def") =
      .ok (.leaf "x" "byte" .nil) := rfl
  have hload := load_of_directory hfind
  rw [hdefinitions, hskipped] at hload
  exact ⟨hfind, rfl, _, hload, rfl, fileKey?_eq_some_iff.mp hname,
    FileTree.readDefinition_eq_ok_iff.mp hread, rfl⟩

end Accounts

end DefinitionTable

end PacketCodec
