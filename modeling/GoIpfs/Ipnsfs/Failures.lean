import GoIpfs.Ipnsfs.Close

/-!
# Where the directory methods part from their contract

A link to a Raw node makes every lookup of its name panic (`lookups_panic_of_raw`); `Open` creates
a file whatever the mode (`open_creates_any_mode`); `Mkdir` links a folder node it never stores
and then fails to fetch it (`mkdir_fails_after_linking`).
-/

namespace GoIpfs

namespace Ipnsfs

variable {hash : Node → Key} {s : Heap} {a : Nat} {name : String}

/-! ## Raw links -/

/-- A link to a Raw node makes `childDir`, `childFile`, `Child` and `Mkdir` of its name panic. -/
theorem lookups_panic_of_raw (hd : (s.dirs a).childDirs name = none)
    (hf : (s.dirs a).files name = none) (ht : Directory.linkType hash s a name = some .raw) :
    Directory.childDir hash a name s = .error (.panicked "NO!") s ∧
      Directory.childFile hash a name s = .error (.panicked "NO!") s ∧
      Directory.child hash a name s = .error (.panicked "NO!") s ∧
      Directory.mkdir hash a name s = .error (.panicked "NO!") s := by
  have hdir : Directory.childDir hash a name s = .error (.panicked "NO!") s :=
    Directory.lookupChild_raw hd ht
  have hfile : Directory.childFile hash a name s = .error (.panicked "NO!") s :=
    Directory.lookupChild_raw hf ht
  refine ⟨hdir, hfile, ?_, ?_⟩
  · simp only [Directory.child, bind_apply, attempt_of_panic hdir rfl]
  · simp only [Directory.mkdir, bind_apply, attempt_of_panic hdir rfl]

/-- The root linking "r" to a Raw node: every lookup of "r" panics. -/
theorem lookups_panic_linked_raw :
    let s := Heap.linked sizeHash "r" rawNode
    (s.dirs 0).childDirs "r" = none ∧ (s.dirs 0).files "r" = none ∧
      Directory.linkType sizeHash s 0 "r" = some .raw ∧
      Directory.child sizeHash 0 "r" s = .error (.panicked "NO!") s :=
  have ht : Directory.linkType sizeHash (Heap.linked sizeHash "r" rawNode) 0 "r" = some .raw := by
    decide
  ⟨rfl, rfl, ht, (lookups_panic_of_raw rfl rfl ht).2.2.1⟩

/-! ## `Open` -/

/-- `Open` of a name with no file cached and no link to a file makes one, whatever the mode. -/
theorem open_creates_any_mode (mode : Nat) (hf : (s.dirs a).files name = none)
    (hn : (s.dirs a).node.links.find? (·.name = name) = none ∨
      Directory.linkType hash s a name = some .directory) :
    ∃ s', Directory.open hash a [name] mode s = .ok s.nextFile s' ∧
      (s'.dirs a).files name = some s.nextFile ∧ s'.files s.nextFile = ⟨a, emptyFileNode, name⟩ := by
  obtain ⟨e, he, hc⟩ : ∃ e : Error, e.isPanic = false ∧
      Directory.childFile hash a name s = .error e s := by
    rcases hn with hl | ht
    · exact ⟨.noSuch, rfl, Directory.lookupChild_noLink hf hl⟩
    · exact ⟨.isDirectory, rfl, Directory.lookupChild_otherKind hf ht (by decide) (by decide)⟩
  rw [Directory.open_create (attempt_of_error hc he)]
  exact ⟨_, rfl, by simp [Directory.setCache], by simp⟩

/-- The spec's `Open(["a"])` on a root whose "a" is a directory: a new file, not `IsDirectory`. -/
theorem open_directory_linked :
    let s := Heap.linked sizeHash "a" emptyDirNode
    (s.dirs 0).files "a" = none ∧ Directory.linkType sizeHash s 0 "a" = some .directory ∧
      ∃ s', Directory.open sizeHash 0 ["a"] 0 s = .ok 0 s' ∧ (s'.dirs 0).files "a" = some 0 ∧
        s'.files 0 = ⟨0, emptyFileNode, "a"⟩ :=
  have ht : Directory.linkType sizeHash (Heap.linked sizeHash "a" emptyDirNode) 0 "a" =
      some .directory := by
    decide
  ⟨rfl, ht, open_creates_any_mode 0 rfl (.inr ht)⟩

/-! ## `Mkdir` -/

/-- `Mkdir` over a service without the empty folder node fails after linking the name. -/
theorem mkdir_fails_after_linking (hd : (s.dirs a).childDirs name = none)
    (hf : (s.dirs a).files name = none)
    (hl : (s.dirs a).node.links.find? (·.name = name) = none)
    (hsink : (s.dirs a).parent = .sink)
    (hempty : ∀ n ∈ s.dserv.blocks, hash n ≠ hash emptyDirNode) :
    ∃ s', Directory.mkdir hash a name s = .error (.new "blockservice: key not found") s' ∧
      (s'.dirs a).node.links = (s.dirs a).node.links ++ [⟨name, hash emptyDirNode⟩] := by
  have hcd : Directory.childDir hash a name s = .error .noSuch s := Directory.lookupChild_noLink hd hl
  have hcf : Directory.childFile hash a name s = .error .noSuch s :=
    Directory.lookupChild_noLink hf hl
  have hkeep : (s.dirs a).node.links.filter (·.name ≠ name) = (s.dirs a).node.links :=
    List.filter_eq_self.2 fun l hm => by simpa using List.find?_eq_none.1 hl l hm
  let s₁ : Heap := after (addLink hash a name emptyDirNode) s
  have hadd : addLink hash a name emptyDirNode s = .ok () s₁ := rfl
  have hd₁ : s₁.dirs a = { s.dirs a with
      node := (s.dirs a).node.addNodeLinkClean hash name emptyDirNode } := by
    simp [s₁, after, addLink]
  have hs₁ : (s₁.dirs a).node.links = (s.dirs a).node.links ++ [⟨name, hash emptyDirNode⟩] := by
    rw [hd₁]
    simp only [Node.addNodeLinkClean]
    rw [hkeep]
  have hl₁ : (s₁.dirs a).node.links.find? (·.name = name) = some ⟨name, hash emptyDirNode⟩ := by
    rw [hs₁, List.find?_append, hl]
    simp
  have hnone : s.dserv.blocks.find? (fun n => hash n = hash emptyDirNode) = none :=
    List.find?_eq_none.2 fun n hn => by simpa using hempty n hn
  have hfetch : Directory.childDir hash a name s₁ =
      .error (.new "blockservice: key not found") s₁ :=
    Directory.lookupChild_getError (by rw [hd₁]; exact hd) hl₁
      (by simp [s₁, after, addLink, DAGService.get, hnone])
  have hcl : Directory.closeParent hash a s₁ = .ok () s₁ := closeParent_sink (by rw [hd₁]; exact hsink)
  refine ⟨s₁, ?_, hs₁⟩
  simp [Directory.mkdir, attempt_of_error hcd rfl, attempt_of_error hcf rfl, hadd, hcl, hfetch]

/-- The spec's `Mkdir(root, "sub")` over an empty service fails, and the root links "sub". -/
theorem mkdir_fails_root :
    let s := Heap.root "" emptyDirNode (.ofBlocks [])
    ∃ s', Directory.mkdir sizeHash 0 "sub" s = .error (.new "blockservice: key not found") s' ∧
      (s'.dirs 0).node.links = [⟨"sub", sizeHash emptyDirNode⟩] :=
  mkdir_fails_after_linking rfl rfl rfl rfl (fun _ h => absurd h (List.not_mem_nil _))

end Ipnsfs

end GoIpfs
