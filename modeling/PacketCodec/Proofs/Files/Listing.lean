import PacketCodec.Files.Tree
import PacketCodec.Proofs.Text.Order

namespace PacketCodec

namespace FileTree

variable {tree : FileTree} {names : List Text}

theorem nodup_eraseDups (names : List Text) : names.eraseDups.Nodup := by
  induction hlength : names.length using Nat.strongRecOn generalizing names with
  | ind n ih =>
      cases names with
      | nil => exact List.nodup_nil
      | cons name rest =>
          rw [List.eraseDups_cons]
          have hshorter : (rest.filter fun other => !other == name).length < n := by
            rw [← hlength]
            exact Nat.lt_succ_of_le (List.length_filter_le ..)
          refine List.nodup_cons.mpr ⟨fun hmem => ?_, ih _ hshorter _ rfl⟩
          have hfilter := List.mem_eraseDups.mp hmem
          simp at hfilter

theorem nodup_of_nodeAt? {parts : List Text} (h : tree.nodeAt? parts = some (.directory names)) :
    names.Nodup := by
  unfold nodeAt? at h
  split at h
  · cases h
  · split at h
    · cases h
      exact nodup_eraseDups _
    · cases h

theorem nodup_of_follow {place : Place} {parts : List Text}
    (h : tree.follow place parts = .ok (.directory names)) : names.Nodup := by
  induction parts generalizing place with
  | nil =>
      cases place with
      | outside =>
          cases h
          exact List.nodup_nil
      | inside known =>
          rw [follow] at h
          split at h
          next hnode =>
            cases h
            exact nodup_of_nodeAt? hnode
          · cases h
  | cons part rest ih =>
      cases place with
      | outside =>
          rw [follow] at h
          split at h
          · exact ih h
          · cases h
      | inside known =>
          rw [follow] at h
          split at h
          · cases h
          · split at h
            · cases h
            · split at h
              · exact ih h
              · split at h
                · cases h
                · exact ih h

-- No name is in a directory twice.
theorem nodup_of_find {path : Path} (h : tree.find path = .ok (.directory names)) :
    names.Nodup := by
  unfold find at h
  split at h
  · cases h
  · split at h
    · cases h
    · exact nodup_of_follow h

end FileTree

end PacketCodec
