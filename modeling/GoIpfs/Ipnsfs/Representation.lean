import GoIpfs.Ipnsfs.Stable

/-!
# What a directory represents

The link names of a directory stay pairwise distinct over every run (`names_nodup_runCalls`), but
the two caches do not follow the links as closely: `Open` caches a file beside a cached directory
of the same name (`open_overlaps_caches`), and a file's `RenameEntry` leaves the file cached
under its old, unlinked name (`renameEntry_file_stale`, `child_after_rename`).
-/

namespace GoIpfs

namespace Ipnsfs

variable (hash : Node → Key)

/-! ## Link names -/

section Names

variable {hash}

/-- The directory at `d` is allocated and its link names are pairwise distinct. -/
def NamesNodup (d : Nat) (s : Heap) : Prop := d < s.nextDir ∧ (s.dirs d).node.names.Nodup

theorem namesNodup_modifyDir {d a : Nat} {g : Directory → Directory} {s : Heap}
    (hg : d = a → (g (s.dirs a)).node.names.Nodup) (hs : NamesNodup d s) :
    NamesNodup d (after (modifyDir a g) s) := by
  refine ⟨hs.1, ?_⟩
  by_cases hda : d = a
  · subst hda
    simpa [after] using hg rfl
  · simpa [after, Function.update_noteq hda] using hs.2

/-- Every primitive keeps the link names of an allocated directory distinct. -/
theorem stable_namesNodup (d b : Nat) : Stable hash (NamesNodup d) b := by
  refine ⟨fun a _ g hg s hs => namesNodup_modifyDir (fun h => ?_) hs, fun D s hs => ?_,
    fun _ _ hs => hs, fun _ _ hs => hs, fun a _ name s hs => ?_,
    fun a _ name nd s hs => namesNodup_modifyDir (fun h => ?_) hs⟩
  · subst h
    rw [(hg _).1]
    exact hs.2
  · refine ⟨Nat.lt_succ_of_lt hs.1, ?_⟩
    simpa [after, Function.update_noteq (Nat.ne_of_lt hs.1)] using hs.2
  · rw [after_removeLink]
    split
    · rename_i n hr
      exact namesNodup_modifyDir (fun h => by subst h; exact Node.nodup_names_removeNodeLink hs.2 hr) hs
    · exact hs
  · subst h
    exact Node.nodup_names_addNodeLinkClean hash hs.2 name nd

/-- The link names of an allocated directory stay distinct over every sequence of calls. -/
theorem names_nodup_runCalls {s : Heap} {d : Nat} (hd : d < s.nextDir)
    (hn : (s.dirs d).node.names.Nodup) (calls : List Call) :
    ((runCalls hash s calls).dirs d).node.names.Nodup :=
  (runCalls_of_preserves
    (Stable.call (stable_namesNodup d)
      (fun _ _ s hs => namesNodup_modifyDir (fun h => by subst h; exact hs.2) hs)
      (fun _ _ _ hs => hs))
    ⟨hd, hn⟩ calls).2

/-- A root linking "x" to a folder keeps distinct names over `Mkdir("x")` and `AddChild("x", …)`. -/
theorem names_nodup_linked :
    let s := Heap.linked sizeHash "x" emptyDirNode
    0 < s.nextDir ∧ (s.dirs 0).node.names.Nodup ∧
      ((runCalls sizeHash s [.mkdir 0 "x", .addChild 0 "x" hiFile]).dirs 0).node.names.Nodup :=
  ⟨by decide, by decide, names_nodup_runCalls (by decide) (by decide) _⟩

end Names

/-! ## The caches -/

/-- `Open` of a name that caches a directory, whose `childFile` fails, caches a file there too. -/
theorem open_overlaps_caches {s : Heap} {a x : Nat} {name : String} {e : Error} (mode : Nat)
    (hx : (s.dirs a).childDirs name = some x)
    (hcf : Directory.childFile hash a name s = .error e s) (he : e.isPanic = false) :
    ∃ s', Directory.open hash a [name] mode s = .ok s.nextFile s' ∧
      (s'.dirs a).childDirs name = some x ∧ (s'.dirs a).files name = some s.nextFile := by
  rw [Directory.open_create (attempt_of_error hcf he)]
  exact ⟨_, rfl, by simpa [Directory.setCache] using hx, by simp [Directory.setCache]⟩

/-- `Child("x")` caches the folder linked as "x", and `Open(["x"], 0)` a file under "x" too. -/
theorem caches_overlap_after_open :
    let s := runCalls sizeHash (Heap.linked sizeHash "x" emptyDirNode) [.child 0 "x"]
    (s.dirs 0).childDirs "x" = some 1 ∧
      Directory.childFile sizeHash 0 "x" s = .error .isDirectory s ∧
      ∃ s', Directory.open sizeHash 0 ["x"] 0 s = .ok 0 s' ∧
        (s'.dirs 0).childDirs "x" = some 1 ∧ (s'.dirs 0).files "x" = some 0 :=
  have hx : ((runCalls sizeHash (Heap.linked sizeHash "x" emptyDirNode)
      [.child 0 "x"]).dirs 0).childDirs "x" = some 1 := by
    decide
  have hcf : Directory.childFile sizeHash 0 "x"
      (runCalls sizeHash (Heap.linked sizeHash "x" emptyDirNode) [.child 0 "x"]) =
        .error .isDirectory (runCalls sizeHash (Heap.linked sizeHash "x" emptyDirNode)
          [.child 0 "x"]) :=
    rfl
  ⟨hx, hcf, open_overlaps_caches sizeHash 0 hx hcf rfl⟩

/-- `RenameEntry("x", "y")` of the file linked as "x" links "y" but leaves the file under "x". -/
theorem renameEntry_linked_file :
    ∃ s, Directory.renameEntry hash 0 "x" "y" (Heap.linked hash "x" hiFile) = .ok () s ∧
      (s.dirs 0).node.links = [⟨"y", hash hiFile⟩] ∧ (s.dirs 0).files "x" = some 0 ∧
      (s.dirs 0).childDirs "x" = none ∧ (s.files 0).name = "y" := by
  let s₀ := Heap.linked hash "x" hiFile
  have hl : (s₀.dirs 0).node.links.find? (·.name = "x") = some ⟨"x", hash hiFile⟩ := by
    simp [s₀, Heap.linked, Heap.root]
  have hg : s₀.dserv.get hash (hash hiFile) = .ok hiFile := by
    simp [s₀, Heap.linked, Heap.root, DAGService.get, DAGService.ofBlocks]
  -- `childDir` meets a file and fails; `childFile` makes the file overlay 0 and caches it
  have hcd : Directory.childDir hash 0 "x" s₀ = .error (.new ("x" ++ " is not a directory")) s₀ :=
    (Directory.lookupChild_link (s := s₀) (k := .dir) rfl hl hg rfl).trans
      (Directory.newChild_other (by decide) (.inr rfl))
  have hcf : Directory.childFile hash 0 "x" s₀ = .ok 0 _ :=
    (Directory.lookupChild_link (s := s₀) (k := .file) rfl hl hg rfl).trans
      (Directory.newChild_make rfl rfl)
  rw [Directory.renameEntry_of_childFile hash hcd rfl hcf rfl, closeParent_sink rfl]
  exact ⟨_, rfl, by simp [s₀, Heap.linked, Heap.root, Directory.setCache, Node.addNodeLinkClean]⟩

/-- `RenameEntry("x", "y")` leaves the file, renamed "y", cached under the unlinked "x". -/
theorem renameEntry_file_stale :
    ∃ s, Directory.renameEntry hash 0 "x" "y" (Heap.linked hash "x" hiFile) = .ok () s ∧
      (s.dirs 0).files "x" = some 0 ∧ (s.files 0).name = "y" ∧
      (s.dirs 0).node.links.filter (·.name = "x") = [] := by
  obtain ⟨s, h, hl, hf, -, hn⟩ := renameEntry_linked_file hash
  exact ⟨s, h, hf, hn, by simp [hl]⟩

/-- After `RenameEntry("x", "y")` of a file, `List()` is `["y"]` and `Child("x")` finds the file. -/
theorem child_after_rename :
    ∃ s, Directory.renameEntry hash 0 "x" "y" (Heap.linked hash "x" hiFile) = .ok () s ∧
      Directory.list (s.dirs 0) = ["y"] ∧ Directory.child hash 0 "x" s = .ok (.file 0) s := by
  obtain ⟨s, h, hl, hf, hd, -⟩ := renameEntry_linked_file hash
  have hcd : Directory.childDir hash 0 "x" s = .error .noSuch s :=
    Directory.lookupChild_noLink hd (by simp [hl])
  exact ⟨s, h, by simp [Directory.list, Node.names, hl],
    Directory.child_of_childFile hcd rfl (Directory.lookupChild_cached hf)⟩

end Ipnsfs

end GoIpfs
