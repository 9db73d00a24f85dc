import PacketCodec.Files.Load
import PacketCodec.Proofs.Except

namespace PacketCodec

namespace CodePoint

theorem isSurrogate_ofChar (c : Char) : (ofChar c).isSurrogate = false := by
  have hvalid : c.toNat < 0xD800 ∨ 0xDFFF < c.toNat ∧ c.toNat < 0x110000 := c.valid
  have hval : (ofChar c).val = c.toNat := rfl
  simp [isSurrogate, isHighSurrogate, isLowSurrogate, hval]
  omega

theorem eq_nul_of_ofChar {c : Char} (h : ofChar c = 0) : c = '\x00' := by
  have hvalue : c.toNat = 0 := congrArg Fin.val h
  exact Char.toNat_inj.mp hvalue

end CodePoint

namespace Text

-- Texts that can be part of the name of a file.
def Nameable (t : Text) : Prop :=
  ∀ c ∈ t, c ≠ 0 ∧ c.isSurrogate = false

instance (t : Text) : Decidable t.Nameable :=
  inferInstanceAs (Decidable (∀ c ∈ t, c ≠ 0 ∧ c.isSurrogate = false))

namespace Nameable

variable {s t : Text}

theorem append (hs : s.Nameable) (ht : t.Nameable) : Nameable (s ++ t) := by
  intro c hc
  rcases List.mem_append.mp hc with hc | hc
  · exact hs c hc
  · exact ht c hc

theorem ofChars {chars : List Char} (h : '\x00' ∉ chars) :
    Nameable (chars.map CodePoint.ofChar) := by
  intro c hc
  obtain ⟨char, hchar, rfl⟩ := List.mem_map.mp hc
  refine ⟨fun hzero => h ?_, CodePoint.isSurrogate_ofChar char⟩
  rw [← CodePoint.eq_nul_of_ofChar hzero]
  exact hchar

theorem ofNat (n : Nat) : (Text.ofNat n).Nameable := by
  refine ofChars fun hzero => ?_
  have hdigit := Nat.isDigit_of_mem_toDigits (by decide) (by decide) hzero
  contradiction

theorem ofInt (n : Int) : (Text.ofInt n).Nameable := by
  have hsign : Nameable (['-'].map CodePoint.ofChar) := ofChars (by decide)
  cases n with
  | ofNat n => exact ofNat n
  | negSucc n => exact hsign.append (ofNat (n + 1))

end Nameable

end Text

namespace Path

variable {t : Text} {c : CodePoint}

theorem mem_of_mem_pieces (h : c ∈ (pieces t).flatten) : c ∈ t := by
  induction t with
  | nil => exact h
  | cons d rest ih =>
      rw [pieces] at h
      split at h
      next =>
        rw [List.flatten_singleton, List.mem_singleton] at h
        exact h ▸ List.mem_cons_self
      next piece others hpieces =>
        rw [hpieces] at ih
        split at h
        · exact List.mem_cons_of_mem d (ih h)
        · rcases List.mem_cons.mp h with rfl | h
          · exact List.mem_cons_self
          · exact List.mem_cons_of_mem d (ih h)

theorem mem_of_mem_parts (h : c ∈ (ofText t).parts.flatten) : c ∈ t := by
  obtain ⟨piece, hpiece, hc⟩ := List.mem_flatten.mp h
  exact mem_of_mem_pieces (List.mem_flatten.mpr ⟨piece, (List.mem_filter.mp hpiece).1, hc⟩)

theorem slashes_ofText (hc : c ≠ 0x2F) (t : Text) : (ofText (c :: t)).slashes = 0 := by
  simp [ofText, hc]

end Path

namespace FileTree

variable {tree : FileTree} {path : Path} {fault : FileFault}

-- Below a directory a name in order changes nothing about the names.
theorem unnameable?_join (directory : Path) {t : Text} (hrelative : (Path.ofText t).slashes = 0)
    (ht : t.Nameable) :
    unnameable? (directory.join (.ofText t)) = unnameable? directory := by
  have hletters : ∀ c ∈ (Path.ofText t).parts.flatten, c ≠ 0 ∧ c.isSurrogate = false :=
    fun c hc => ht c (Path.mem_of_mem_parts hc)
  have hsurrogate : ((Path.ofText t).parts.flatten.any fun c =>
      c.isSurrogate && !isLooseByte c) = false := by
    simp only [List.any_eq_false, Bool.and_eq_true, not_and]
    intro c hc hsurrogate
    rw [(hletters c hc).2] at hsurrogate
    contradiction
  have hzero : (0 : CodePoint) ∉ (Path.ofText t).parts.flatten := fun h => (hletters 0 h).1 rfl
  simp only [unnameable?, Path.join, if_pos hrelative, List.flatten_append, List.any_append,
    hsurrogate, Bool.or_false, List.mem_append, hzero, or_false]

theorem isReported_of_follow {place : Place} {parts : List Text}
    (h : tree.follow place parts = .error fault) : fault.isReported = true := by
  induction parts generalizing place with
  | nil =>
      cases place with
      | outside => contradiction
      | inside parts =>
          rw [follow] at h
          split at h
          · contradiction
          · cases h
            rfl
  | cons part rest ih =>
      cases place with
      | outside =>
          rw [follow] at h
          split at h
          · exact ih h
          · cases h
            split <;> rfl
      | inside parts =>
          rw [follow] at h
          split at h
          · cases h
            rfl
          · split at h
            · cases h
              rfl
            · split at h
              · exact ih h
              · split at h
                · cases h
                  rfl
                · exact ih h

-- Only names that no file can have are found wrong before the file system is
-- asked.
theorem find_error (h : tree.find path = .error fault) :
    unnameable? path = some fault ∨ fault.isReported = true := by
  unfold find at h
  split at h
  next hname =>
    cases h
    exact .inl hname
  · split at h
    · cases h
      exact .inr rfl
    · exact .inr (isReported_of_follow h)

-- A file whose bytes are not UTF-8.
def Undecodable (tree : FileTree) (path : Path) : Prop :=
  ∃ content, tree.find path = .ok (.file content) ∧ Utf8.decode? content = none

theorem readText_undecodable_iff :
    tree.readText path = .error .undecodable ↔ tree.Undecodable path := by
  constructor
  · intro h
    unfold readText at h
    split at h
    · cases h
    · cases h
    next content hfind =>
      split at h
      · cases h
      next hdecode => exact ⟨content, hfind, hdecode⟩
  · rintro ⟨content, hfind, hdecode⟩
    simp only [readText, hfind, hdecode]

theorem readText_fault (h : tree.readText path = .error (.file fault)) :
    unnameable? path = some fault ∨ fault.isReported = true := by
  unfold readText at h
  split at h
  next hfind =>
    cases h
    exact find_error hfind
  · cases h
    exact .inr rfl
  · split at h <;> cases h

-- What loading a resource from a file can fail with: a missing resource, bytes
-- that are no text, and a name that no file can have.
inductive LoadFailure (tree : FileTree) (path : Path) : Failure → Prop
  | resourceNotFound (message : Text) : LoadFailure tree path (.resourceNotFound message)
  | undecodable (h : tree.Undecodable path) : LoadFailure tree path (ReadError.undecodable).failure
  | unnameable {fault : FileFault} (h : unnameable? path = some fault) :
      LoadFailure tree path (ReadError.file fault).failure

namespace LoadFailure

theorem of_undecodable (h : tree.readText path = .error .undecodable) :
    tree.LoadFailure path (ReadError.undecodable).failure :=
  .undecodable (readText_undecodable_iff.mp h)

theorem of_fault (h : tree.readText path = .error (.file fault)) (message : Text) :
    tree.LoadFailure path (if fault.isReported then .resourceNotFound message
      else (ReadError.file fault).failure) := by
  split
  · exact .resourceNotFound message
  next hreported =>
    rcases readText_fault h with hname | hfault
    · exact .unnameable hname
    · contradiction

end LoadFailure

end FileTree

end PacketCodec
