import PacketCodec.Proofs.Files.Tree
import PacketCodec.Proofs.Registry.Resolution
import PacketCodec.Proofs.Revision.Grammar

namespace PacketCodec

variable {tree : FileTree} {path : Path} {settings : Settings} {identifier : Text}
  {r : Revision} {e : Failure}

theorem EnumMap.load_error {limit : Value} (hlimit : Limit limit)
    (h : load tree path limit = .error e) : tree.LoadFailure path e := by
  unfold load at h
  split at h
  · obtain ⟨cause, hcause, rfl⟩ := mapError_eq_error_iff.mp h
    rw [(Parsed.empty limit).addLines_error hlimit hcause]
    exact .resourceNotFound _
  next hread =>
    cases h
    exact .of_fault hread _
  next hread =>
    cases h
    exact .of_undecodable hread

namespace Settings

-- The table of revisions has a number with too many digits to be read.
def HoldsOverlong (settings : Settings) (tree : FileTree) (e : Text.Overlong) : Prop :=
  ∃ t, tree.readText settings.revisions = .ok t ∧ Json.read t = .error (.overlong e)

theorem loadRevisions_error (h : settings.loadRevisions tree = .error e) :
    tree.LoadFailure settings.revisions e ∨
      ∃ cause, settings.HoldsOverlong tree cause ∧ e = .overlong cause := by
  simp only [loadRevisions] at h
  split at h
  next t hread =>
    split at h
    · contradiction
    · cases h
      exact .inl (.resourceNotFound _)
    · cases h
      exact .inl (.resourceNotFound _)
    next cause hoverlong =>
      cases h
      exact .inr ⟨cause, ⟨t, hread, hoverlong⟩, rfl⟩
  next hread =>
    cases h
    exact .inl (.of_fault hread _)
  next hread =>
    cases h
    exact .inl (.of_undecodable hread)

-- What the table of revisions says for an identifier.
def Says (settings : Settings) (tree : FileTree) (identifier t : Text) : Prop :=
  ∃ entries, settings.loadRevisions tree = .ok entries ∧ entries.lookup identifier = some t

-- The revision that the table of revisions has for an identifier.
def Revises (settings : Settings) (tree : FileTree) (identifier : Text) (r : Revision) : Prop :=
  ∃ t, settings.Says tree identifier t ∧ Revision.ofValue (.text t) = .ok r

-- The files that a registry is made from.
inductive Source (settings : Settings) (tree : FileTree) (identifier : Text) : Path → Prop
  | revisions : Source settings tree identifier settings.revisions
  | protocolMap : Source settings tree identifier (settings.protocolMap identifier)
  | sysmsgMap {r : Revision} (h : settings.Revises tree identifier r) :
      Source settings tree identifier (settings.sysmsgMap (Text.ofNat r.sysmsgMapVersion))

-- A map lies below the directory of maps, under a name that a file can have.
theorem unnameable?_map (directory : Path) {start t : Text} (hstart : start.Nameable)
    (hrelative : ∀ rest, (Path.ofText (start ++ rest)).slashes = 0) (ht : t.Nameable) :
    FileTree.unnameable? (directory.join (.ofText (Text.join [start, t, ".map"]))) =
      FileTree.unnameable? directory := by
  have hend : Text.Nameable (Text.ofString ".map") := .ofChars (by decide)
  have hname : Text.join [start, t, ".map"] = start ++ (t ++ Text.ofString ".map") := by
    simp [Text.join]
  rw [hname]
  exact FileTree.unnameable?_join directory (hrelative _) (hstart.append (ht.append hend))

theorem unnameable?_protocolMap (settings : Settings) (h : identifier.Nameable) :
    FileTree.unnameable? (settings.protocolMap identifier) =
      FileTree.unnameable? settings.maps := by
  have hletter : CodePoint.ofChar 'p' ≠ 0x2F := by decide
  exact unnameable?_map _ (.ofChars (by decide)) (fun _ => Path.slashes_ofText hletter _) h

theorem unnameable?_sysmsgMap (settings : Settings) (version : Nat) :
    FileTree.unnameable? (settings.sysmsgMap (Text.ofNat version)) =
      FileTree.unnameable? settings.maps := by
  have hletter : CodePoint.ofChar 's' ≠ 0x2F := by decide
  exact unnameable?_map _ (.ofChars (by decide)) (fun _ => Path.slashes_ofText hletter _)
    (.ofNat version)

theorem Source.unnameable? (hidentifier : identifier.Nameable)
    (h : settings.Source tree identifier path) :
    FileTree.unnameable? path = FileTree.unnameable? settings.revisions ∨
      FileTree.unnameable? path = FileTree.unnameable? settings.maps := by
  cases h with
  | revisions => exact .inl rfl
  | protocolMap => exact .inr (settings.unnameable?_protocolMap hidentifier)
  | sysmsgMap => exact .inr (settings.unnameable?_sysmsgMap _)

end Settings

namespace Registry

theorem lookUp_texts (entries : List (Text × Text)) (key : Text) :
    lookUp (entries.map fun (key, value) => (key, .text value)) key =
      (entries.lookup key).elim .null .text := by
  induction entries with
  | nil => rfl
  | cons entry rest ih =>
      rw [List.map_cons, lookUp, List.lookup_cons, List.lookup_cons]
      cases key == entry.1
      · exact ih
      · rfl

theorem revisionsOf_loaded (tree : FileTree) (settings : Settings)
    (packets sysmsgs : Option EnumMap) :
    revisionsOf tree (some settings) ⟨none, packets, sysmsgs⟩ =
      (settings.loadRevisions tree).map fun entries =>
        entries.map fun (key, value) => (key, .text value) := by
  simp only [revisionsOf, required, ok_bind]
  cases settings.loadRevisions tree <;> rfl

section Revisions

variable {entries : List (Text × Text)}

theorem revisionOf_texts (entries : List (Text × Text)) (identifier : Text) :
    revisionOf (entries.map fun (key, value) => (key, .text value)) identifier =
      match entries.lookup identifier with
      | none => .error (.revisionNotFound (.text identifier))
      | some t => Revision.ofValue (.text t) := by
  rw [revisionOf, lookUp_texts]
  cases entries.lookup identifier <;> rfl

theorem revisionOf_error (hload : settings.loadRevisions tree = .ok entries)
    (h : revisionOf (entries.map fun (key, value) => (key, .text value)) identifier = .error e) :
    e = .revisionNotFound (.text identifier) ∨
      ∃ t, settings.Says tree identifier t ∧ Revision.ofValue (.text t) = .error e := by
  rw [revisionOf_texts] at h
  split at h
  · cases h
    exact .inl rfl
  next t hlookup => exact .inr ⟨t, ⟨entries, hload, hlookup⟩, h⟩

theorem revisionOf_eq_ok_iff (hload : settings.loadRevisions tree = .ok entries) :
    revisionOf (entries.map fun (key, value) => (key, .text value)) identifier = .ok r ↔
      settings.Revises tree identifier r := by
  rw [revisionOf_texts]
  constructor
  · intro h
    split at h
    · contradiction
    next t hlookup => exact ⟨t, ⟨entries, hload, hlookup⟩, h⟩
  · rintro ⟨t, ⟨loaded, hloaded, hlookup⟩, hrevision⟩
    rw [hload] at hloaded
    cases hloaded
    simp only [hlookup, hrevision]

end Revisions

theorem typesOf_error (h : typesOf r = .error e) :
    e = .silent .numberTooLarge ∧ r.gameVersion? = none := by
  unfold typesOf at h
  cases hversion : r.gameVersion? with
  | none =>
      rw [hversion] at h
      cases h
      exact ⟨rfl, rfl⟩
  | some version =>
      rw [hversion] at h
      contradiction

-- What building a registry from files can fail with.
inductive BuildFailure (tree : FileTree) (settings : Settings) (identifier : Text) :
    Failure → Prop
  | revisionNotFound : BuildFailure tree settings identifier (.revisionNotFound (.text identifier))
  | invalidRevision (t : Text) : BuildFailure tree settings identifier (.invalidRevision (.text t))
  | resourceNotFound (message : Text) :
      BuildFailure tree settings identifier (.resourceNotFound message)
  -- The rest is not in the documentation.
  | undecodable {path : Path} (hpath : settings.Source tree identifier path)
      (h : tree.Undecodable path) : BuildFailure tree settings identifier (.silent .undecodable)
  | numberTooLarge {r : Revision} (hr : settings.Revises tree identifier r)
      (h : r.gameVersion? = none) : BuildFailure tree settings identifier (.silent .numberTooLarge)
  | overlongNumber {cause : Text.Overlong} (h : settings.HoldsOverlong tree cause) :
      BuildFailure tree settings identifier (.overlong cause)
  | overlongRevision {t : Text} {cause : Text.Overlong} (ht : settings.Says tree identifier t)
      (h : Revision.ofValue (.text t) = .error (.overlong cause)) :
      BuildFailure tree settings identifier (.overlong cause)
  | unnameable {path : Path} {fault : FileFault}
      (hpath : path ∈ [settings.revisions, settings.maps])
      (h : FileTree.unnameable? path = some fault) :
      BuildFailure tree settings identifier (FileTree.ReadError.file fault).failure

namespace BuildFailure

theorem of_load (hidentifier : identifier.Nameable) (hpath : settings.Source tree identifier path)
    (h : tree.LoadFailure path e) : BuildFailure tree settings identifier e := by
  cases h with
  | resourceNotFound message => exact .resourceNotFound message
  | undecodable h => exact .undecodable hpath h
  | unnameable h =>
      rcases hpath.unnameable? hidentifier with hname | hname
      · exact .unnameable (by simp) (hname ▸ h)
      · exact .unnameable (by simp) (hname ▸ h)

theorem of_build (hidentifier : identifier.Nameable)
    (h : (build tree (some settings) ⟨none, none, none⟩ identifier).1 = .error e) :
    BuildFailure tree settings identifier e := by
  rcases build_error h with hrevisions | ⟨revisions, hrevisions, h⟩
  · rw [revisionsOf_loaded, map_eq_error_iff] at hrevisions
    rcases Settings.loadRevisions_error hrevisions with hload | ⟨cause, hoverlong, rfl⟩
    · exact of_load hidentifier .revisions hload
    · exact .overlongNumber hoverlong
  · rw [revisionsOf_loaded] at hrevisions
    obtain ⟨entries, hload, rfl⟩ := map_eq_ok_iff.mp hrevisions
    rcases h with hrevision | ⟨r, hrevision, hrest⟩
    · rcases revisionOf_error hload hrevision with rfl | ⟨t, ht, hvalue⟩
      · exact .revisionNotFound
      · rcases Revision.ofValue_eq_error_iff.mp hvalue with ⟨_, rfl⟩ | ⟨_, _, _, _, _, rfl⟩
        · exact .invalidRevision t
        · exact .overlongRevision ht hvalue
    · have hr := (revisionOf_eq_ok_iff hload).mp hrevision
      rcases hrest with hpackets | hsysmsgs | htypes
      · exact of_load hidentifier .protocolMap (EnumMap.load_error (.upTo _) hpackets)
      · exact of_load hidentifier (.sysmsgMap hr) (EnumMap.load_error .none hsysmsgs)
      · obtain ⟨rfl, hlarge⟩ := typesOf_error htypes
        exact .numberTooLarge hr hlarge

end BuildFailure

-- Besides the documented failures there are only those that the constructors
-- name: a file that is not UTF-8, a version beyond all doubles, a number with too
-- many digits in the table of revisions, and settings that no file can have.
theorem failures_of_loading (tree : FileTree) (settings : Settings)
    (hidentifier : identifier.Nameable ∨ ∃ n, identifier = .ofInt n) :
    (∀ e, (build tree (some settings) ⟨none, none, none⟩ identifier).1 = .error e →
      BuildFailure tree settings identifier e) ∧
    (∀ path limit e, EnumMap.Limit limit → EnumMap.load tree path limit = .error e →
      tree.LoadFailure path e) ∧
    ∀ e, settings.loadRevisions tree = .error e → tree.LoadFailure settings.revisions e ∨
      ∃ cause, settings.HoldsOverlong tree cause ∧ e = .overlong cause := by
  have hnameable : identifier.Nameable := by
    rcases hidentifier with h | ⟨n, rfl⟩
    · exact h
    · exact .ofInt n
  exact ⟨fun _ => .of_build hnameable, fun _ _ _ => EnumMap.load_error,
    fun _ => Settings.loadRevisions_error⟩

-- Where all else is in order, a version beyond all doubles is what is left to fail.
theorem build_numberTooLarge {packets sysmsgs : EnumMap} (hr : settings.Revises tree identifier r)
    (hpackets : EnumMap.load tree (settings.protocolMap identifier) (.int maxOpcode) = .ok packets)
    (hsysmsgs : EnumMap.load tree (settings.sysmsgMap (Text.ofNat r.sysmsgMapVersion)) .null =
      .ok sysmsgs)
    (h : r.gameVersion? = none) :
    (build tree (some settings) ⟨none, none, none⟩ identifier).1 =
      .error (.silent .numberTooLarge) := by
  obtain ⟨t, ⟨entries, hload, hlookup⟩, hvalue⟩ := hr
  have hrevision := (revisionOf_eq_ok_iff hload).mpr ⟨t, ⟨entries, hload, hlookup⟩, hvalue⟩
  have hrevisions : revisionsOf tree (some settings) ⟨none, none, none⟩ =
      .ok (entries.map fun (key, value) => (key, .text value)) := by
    rw [revisionsOf_loaded, hload]
    rfl
  have htypes : typesOf r = .error (.silent .numberTooLarge) := by
    rw [typesOf, h]
    rfl
  have hassemble : assemble tree (some settings) ⟨none, none, none⟩ identifier =
      .error (.silent .numberTooLarge) := by
    unfold assemble
    rw [hrevisions, ok_bind, hrevision, ok_bind, packetsOf, sysmsgsOf]
    simp only [required, ok_bind, hpackets, hsysmsgs, htypes, error_bind]
  simp only [build, hassemble]

-- The files of a protocol with the given bytes for its revision and its opcodes.
def bareTree (revision opcodes : List UInt8) : FileTree :=
  ⟨[(["revisions.json"], [0x7B, 0x22, 0x61, 0x22, 0x3A, 0x22] ++ revision ++ [0x22, 0x7D]),
    (["map", "protocol.a.map"], opcodes), (["map", "sysmsg.1.map"], [])], []⟩

def bareSettings : Settings :=
  ⟨.ofText ".", .ofText "protocol", .ofText "map", .ofText "revisions.json"⟩

theorem failures_of_loading_bare :
    (build (bareTree [0x78] []) (some bareSettings) ⟨none, none, none⟩ "a").1 =
        .error (.invalidRevision (.text "x")) ∧
      BuildFailure (bareTree [0x78] []) bareSettings "a" (.invalidRevision (.text "x")) := by
  have hbuild : (build (bareTree [0x78] []) (some bareSettings) ⟨none, none, none⟩ "a").1 =
      .error (.invalidRevision (.text "x")) := by rfl
  have hidentifier : Text.Nameable "a" := .ofChars (by decide)
  exact ⟨hbuild, (failures_of_loading _ _ (.inl hidentifier)).1 _ hbuild⟩

-- Minor versions count hundredths, and this one is close to 10 ^ 318.
def hugeRevision : Revision :=
  ⟨none, 1, 10 ^ 320 - 1, none⟩

def hugeText : Text :=
  0x31 :: 0x2E :: List.replicate 320 0x39

def hugeTree : FileTree :=
  bareTree (0x31 :: 0x2E :: List.replicate 320 0x39) []

theorem revises_huge : bareSettings.Revises hugeTree "a" hugeRevision :=
  ⟨hugeText, ⟨[("a", hugeText)], toOption_eq_some_iff.mp (by decide +kernel), by rfl⟩,
    toOption_eq_some_iff.mp (by decide +kernel)⟩

theorem gameVersion?_huge : hugeRevision.gameVersion? = none :=
  Option.isNone_iff_eq_none.mp (by decide +kernel)

-- Neither a file that is not UTF-8 nor a version beyond all doubles is reported
-- as a failure of the library.
theorem undocumented_failures_of_loading :
    (build (bareTree [0x31] [0xFF]) (some bareSettings) ⟨none, none, none⟩ "a").1 =
        .error (.silent .undecodable) ∧
      EnumMap.load (bareTree [0x31] [0xFF]) (bareSettings.protocolMap "a") .null =
        .error (.silent .undecodable) ∧
      bareSettings.loadRevisions (bareTree [0xFF] []) = .error (.silent .undecodable) ∧
      (build hugeTree (some bareSettings) ⟨none, none, none⟩ "a").1 =
        .error (.silent .numberTooLarge) :=
  ⟨by rfl, by rfl, by rfl,
    build_numberTooLarge revises_huge (by rfl) (by rfl) gameVersion?_huge⟩

end Registry

end PacketCodec
