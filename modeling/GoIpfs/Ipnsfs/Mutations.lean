import GoIpfs.Ipnsfs.WalkUp

/-!
# The mutations commit

On an attached directory, and when `Add` never fails, each mutation returns, does to the node
what its contract says, and commits the change up to the root: `Unlink` (`unlink_commits`),
`AddChild` (`addChild_commits`), the directory branch of `RenameEntry`
(`renameEntry_dir_commits`) and `Mkdir` (`mkdir_commits`). `Mkdir` needs the empty folder node
stored under a key of its own, since its final `childDir` fetches the node it never stored.
-/

namespace GoIpfs

namespace Ipnsfs

/-! ## `Unlink` -/

section Unlink

variable (hash : Node → Key)

/-- `Unlink` of a linked name takes out its first link, uncaches it, and commits. -/
theorem unlink_commits {s : Heap} {a : Nat} {name : String} (h : Attached s a)
    (ha : a < s.nextDir) (hadd : s.dserv.Accepts) (hn : name ∈ (s.dirs a).node.names) :
    ∃ s', Directory.unlink hash a name s = .ok () s' ∧
      (s'.dirs a).node.links = (s.dirs a).node.links.eraseP (·.name = name) ∧
      (s'.dirs a).childDirs name = none ∧ (s'.dirs a).files name = none ∧
      Committed hash s' a := by
  obtain ⟨n', hr⟩ := Node.removeNodeLink_of_mem hn
  let s₂ : Heap := { s with
    dirs := Function.update s.dirs a
      { ((s.dirs a).setCache .dir name none).setCache .file name none with node := n' } }
  have hu : Directory.unlink hash a name s = Directory.closeParent hash a s₂ := by
    simp [Directory.unlink, removeLink, hr, s₂]
  have h₂ : Attached s₂ a := h.of_agree (fun b _ => by
      by_cases hb : b = a
      · subst hb; simp [s₂]
      · simp [s₂, Function.update_noteq hb])
    fun b hb => by simp [s₂, Function.update_noteq (Nat.ne_of_lt hb)]
  obtain ⟨s', hcl, hcom, -, hs'⟩ := closeParent_commits hash h₂ ha hadd
  refine ⟨s', hu.trans hcl, ?_, ?_, ?_, hcom⟩ <;> rw [hs']
  · simp [s₂, Node.links_removeNodeLink hr]
  · simp [s₂, Directory.setCache]
  · simp [s₂, Directory.setCache]

/-- `Unlink("x")` at a root that links "x". -/
theorem unlink_commits_root :
    let s := Heap.linked sizeHash "x" emptyDirNode
    Attached s 0 ∧ 0 < s.nextDir ∧ "x" ∈ (s.dirs 0).node.names ∧
      ∃ s', Directory.unlink sizeHash 0 "x" s = .ok () s' ∧
        (s'.dirs 0).node.links = (s.dirs 0).node.links.eraseP (·.name = "x") ∧
        (s'.dirs 0).childDirs "x" = none ∧ (s'.dirs 0).files "x" = none ∧
        Committed sizeHash s' 0 :=
  have h : Attached (Heap.linked sizeHash "x" emptyDirNode) 0 := .root (by decide)
  have hn : "x" ∈ ((Heap.linked sizeHash "x" emptyDirNode).dirs 0).node.names := by decide
  ⟨h, by decide, hn, unlink_commits sizeHash h (by decide) (DAGService.accepts_ofBlocks _) hn⟩

end Unlink

/-! ## `AddChild` -/

section AddChild

variable {hash : Node → Key} {s : Heap} {a : Nat}

/-- `Child` of a name neither cached nor linked fails without a panic and changes nothing. -/
theorem attempt_child_fresh {name : String} (hd : (s.dirs a).childDirs name = none)
    (hf : (s.dirs a).files name = none)
    (hl : (s.dirs a).node.links.find? (·.name = name) = none) :
    attempt (Directory.child hash a name) s = .ok none s := by
  have hcd : Directory.childDir hash a name s = .error .noSuch s :=
    Directory.lookupChild_noLink hd hl
  have hcf : Directory.childFile hash a name s = .error .noSuch s :=
    Directory.lookupChild_noLink hf hl
  have hch : Directory.child hash a name s = .error .noSuch s := by
    simp only [Directory.child, bind_apply, attempt_of_error hcd rfl, attempt_of_error hcf rfl]
    rfl
  exact attempt_of_error hch rfl

variable (hash)

/-- The tail of `AddChild`: link the node, cache an overlay of kind `k`, and commit. -/
theorem addChild_tail (h : Attached s a) (ha : a < s.nextDir) (hadd : s.dserv.Accepts) (k : Kind)
    (name : String) (nd : Node) :
    ∃ s', (addLink hash a name nd >>= fun _ =>
        (k.make name nd a >>= fun x => modifyDir a (·.setCache k name (some x))) >>= fun _ =>
          Directory.closeParent hash a) s = .ok () s' ∧
      (s'.dirs a).node = (s.dirs a).node.addNodeLinkClean hash name nd ∧
      (∃ x, (s'.dirs a).cache k name = some x ∧ s'.nodeOf (k.fsNode x) = nd) ∧
      Committed hash s' a := by
  let s₁ := after (addLink hash a name nd) s
  let T := k.make name nd a >>= fun x => modifyDir a (·.setCache k name (some x))
  let u := after T s₁
  have hu : Before a s ((s.dirs a).node.addNodeLinkClean hash name nd) u :=
    ((before_make ha k name nd).bind fun x => before_setCache k name _) s₁
      (before_addLink hash name nd before_refl)
  have hau : a < u.nextDir := lt_of_lt_of_le ha hu.1
  have hadd' : u.dserv.Accepts := by cases k <;> exact hadd
  obtain ⟨s', hcl, hcom, -, hs'⟩ := closeParent_commits hash (h.before ha hu) hau hadd'
  have hkeep {x : Nat} (hax : a ≤ x) (hx : x < u.nextDir) : s'.dirs x = u.dirs x := by
    rw [← after_of_ok hcl, closeParent_dirs hax hx]
  have hrun : (addLink hash a name nd >>= fun _ => T >>= fun _ =>
      Directory.closeParent hash a) s = .ok () s' := by
    rw [bind_apply]
    show (T >>= fun _ => Directory.closeParent hash a) s₁ = _
    rw [bind_apply, show T s₁ = .ok () u by cases k <;> rfl]
    exact hcl
  refine ⟨s', hrun, (congrArg Directory.node hs').trans hu.2.2.2.2, ?_, hcom⟩
  rw [hs']
  cases k
  · -- a directory overlay at the next free address, above `a`, which the walk up leaves alone
    have hx : s.nextDir < u.nextDir := by simp [u, T, s₁, Kind.make, newDirectory, after, addLink]
    refine ⟨s.nextDir, by simp [u, T, s₁, Kind.make, newDirectory, after, addLink,
      Directory.cache, Directory.setCache], ?_⟩
    show (s'.dirs s.nextDir).node = nd
    rw [hkeep ha.le hx]
    simp [u, T, s₁, Kind.make, newDirectory, after, addLink,
      Function.update_noteq (Nat.ne_of_gt ha)]
  · -- a file overlay at the next free file address, which the walk up leaves alone
    have hx : s.nextFile < u.nextFile := by simp [u, T, s₁, Kind.make, newFile, after, addLink]
    refine ⟨s.nextFile, by simp [u, T, s₁, Kind.make, newFile, after, addLink,
      Directory.cache, Directory.setCache], ?_⟩
    show (s'.files s.nextFile).node = nd
    rw [← after_of_ok hcl, ((stable_file _ _ (a + 1)).closeParent a.le_succ u ⟨hx, rfl⟩).2]
    simp [u, T, s₁, Kind.make, newFile, after, addLink]

/-- `AddChild` of a new name and a handled type links the node, caches its overlay, and commits. -/
theorem addChild_commits {i : Data} (name : String) (nd : Node) (h : Attached s a)
    (ha : a < s.nextDir) (hadd : s.dserv.Accepts) (hd : (s.dirs a).childDirs name = none)
    (hf : (s.dirs a).files name = none)
    (hl : (s.dirs a).node.links.find? (·.name = name) = none)
    (hi : nd.data.unmarshal = .ok i) (hty : ∀ c, i.type ≠ .other c) :
    ∃ s', Directory.addChild hash a name nd s = .ok () s' ∧
      (s'.dirs a).node = (s.dirs a).node.addNodeLinkClean hash name nd ∧
      (i.type = .directory →
        ∃ x, (s'.dirs a).childDirs name = some x ∧ (s'.dirs x).node = nd) ∧
      (i.type ≠ .directory →
        ∃ f, (s'.dirs a).files name = some f ∧ (s'.files f).node = nd) ∧
      Committed hash s' a := by
  have hc : attempt (Directory.child hash a name) s = .ok none s := attempt_child_fresh hd hf hl
  cases ht : i.type with
  | directory =>
    obtain ⟨s', hrun, hnode, hx, hcom⟩ := addChild_tail hash h ha hadd .dir name nd
    refine ⟨s', ?_, hnode, fun _ => hx, fun hne => absurd rfl hne, hcom⟩
    simp only [Directory.addChild, bind_apply, hi, liftExcept_ok, hc, Option.isSome_none,
      Bool.false_eq_true, if_false, pure_apply, ht]
    exact hrun
  | other c => exact absurd ht (hty c)
  | _ =>
    obtain ⟨s', hrun, hnode, hx, hcom⟩ := addChild_tail hash h ha hadd .file name nd
    refine ⟨s', ?_, hnode, fun h => absurd h (by decide), fun _ => hx, hcom⟩
    simp only [Directory.addChild, bind_apply, hi, liftExcept_ok, hc, Option.isSome_none,
      Bool.false_eq_true, if_false, pure_apply, ht]
    exact hrun

/-- `AddChild("y", hiFile)` at a root that links "x": a file overlay of it is cached. -/
theorem addChild_commits_root :
    let s := Heap.linked sizeHash "x" emptyDirNode
    ∃ s', Directory.addChild sizeHash 0 "y" hiFile s = .ok () s' ∧
      (s'.dirs 0).node = (s.dirs 0).node.addNodeLinkClean sizeHash "y" hiFile ∧
      (∃ f, (s'.dirs 0).files "y" = some f ∧ (s'.files f).node = hiFile) ∧
      Committed sizeHash s' 0 := by
  obtain ⟨s', hrun, hnode, -, hf, hcom⟩ :=
    addChild_commits sizeHash (s := Heap.linked sizeHash "x" emptyDirNode) "y" hiFile
      (.root (a := 0) (by decide)) (by decide) (DAGService.accepts_ofBlocks _) rfl rfl rfl rfl
      (fun _ => nofun)
  exact ⟨s', hrun, hnode, hf (by decide), hcom⟩

end AddChild

/-! ## `RenameEntry` of a directory -/

section Rename

variable (hash : Node → Key) {s : Heap} {a x : Nat}

/-- `RenameEntry` of a cached directory moves its link, renames and recaches it, and commits. -/
theorem renameEntry_dir_commits (old new : String) (hs : Tree s) (h : Attached s a)
    (ha : a < s.nextDir) (hadd : s.dserv.Accepts) (hx : (s.dirs a).childDirs old = some x) :
    ∃ s', Directory.renameEntry hash a old new s = .ok () s' ∧
      (s'.dirs a).node.links =
        ((s.dirs a).node.links.eraseP (·.name = old)).filter (·.name ≠ new) ++
          [⟨new, hash (s.dirs x).node⟩] ∧
      (s'.dirs a).childDirs new = some x ∧ (old ≠ new → (s'.dirs a).childDirs old = none) ∧
      (s'.dirs x).name = new ∧ Committed hash s' a ∧ Attached s' x := by
  obtain ⟨hxn, hpar, -⟩ := hs.cache a ha .dir old x hx
  have hax : a < x := hs.parent_lt x hxn a hpar
  obtain ⟨n', hr⟩ := Node.removeNodeLink_of_mem (hs.linked a ha old x hx)
  let s₂ : Heap := { s with
    dirs := Function.update (Function.update s.dirs x { s.dirs x with name := new }) a
      (({ s.dirs a with node := n'.addNodeLinkClean hash new (s.dirs x).node }.setCache .dir
        old none).setCache .dir new (some x)) }
  have hcd : Directory.childDir hash a old s = .ok x s :=
    Directory.lookupChild_cached (k := .dir) hx
  have hu : Directory.renameEntry hash a old new s = Directory.closeParent hash a s₂ := by
    simp [Directory.renameEntry, Directory.renameTo, attempt_of_ok hcd, removeLink, addLink,
      Kind.fsNode, getNode, Function.update_noteq (Nat.ne_of_lt hax),
      Function.update_noteq (Nat.ne_of_gt hax), hr, s₂]
  have h₂ : Attached s₂ a := h.of_agree (fun b hb => by
      rcases Nat.lt_or_eq_of_le hb with hb | rfl
      · simp [s₂, Function.update_noteq (Nat.ne_of_lt hb), Function.update_noteq
          (Nat.ne_of_lt (hb.trans hax))]
      · simp [s₂])
    fun b hb => by simp [s₂, Function.update_noteq (Nat.ne_of_lt hb),
      Function.update_noteq (Nat.ne_of_lt (hb.trans hax))]
  obtain ⟨s', hcl, hcom, hatt, hs'a⟩ := closeParent_commits hash h₂ ha hadd
  have hs'x : s'.dirs x = { s.dirs x with name := new } := by
    rw [← after_of_ok hcl, closeParent_dirs (s := s₂) hax.le hxn]
    simp [s₂, Function.update_noteq (Nat.ne_of_gt hax)]
  have hcache : (s'.dirs a).childDirs new = some x := by
    simp [hs'a, s₂, Directory.setCache]
  refine ⟨s', hu.trans hcl, ?_, hcache, fun hne => ?_, by rw [hs'x], hcom,
    .child (p := a) (by rw [hs'x]; exact hpar) hax (by rw [hs'x]; exact hcache) hatt⟩
  · simp [hs'a, s₂, Node.addNodeLinkClean, Node.links_removeNodeLink hr]
  · simp [hs'a, s₂, Directory.setCache, hne]

/-- `RenameEntry("x", "y")` at a root whose folder "x" was looked up. -/
theorem renameEntry_dir_commits_linked :
    let s := runCalls sizeHash (Heap.linked sizeHash "x" emptyDirNode) [.child 0 "x"]
    ∃ s', Directory.renameEntry sizeHash 0 "x" "y" s = .ok () s' ∧
      (s'.dirs 0).node.links = [⟨"y", sizeHash emptyDirNode⟩] ∧
      (s'.dirs 0).childDirs "y" = some 1 ∧ (s'.dirs 0).childDirs "x" = none ∧
      (s'.dirs 1).name = "y" ∧ Committed sizeHash s' 0 ∧ Attached s' 1 := by
  intro s
  have hs : Tree s :=
    tree_runCalls (tree_root _ _ _) [.child 0 "x"] (by simp only [OnAllocated]; decide)
  obtain ⟨s', hrun, hl, hc, hold, hn, hcom, hatt⟩ :=
    renameEntry_dir_commits sizeHash "x" "y" hs (.root (a := 0) rfl) (by decide)
      (accepts_runCalls sizeHash (DAGService.accepts_ofBlocks _) _)
      (show (s.dirs 0).childDirs "x" = some 1 by decide)
  exact ⟨s', hrun, hl, hc, hold (by decide), hn, hcom, hatt⟩

end Rename

/-! ## `Mkdir` -/

section Mkdir

variable (hash : Node → Key) {s : Heap} {a : Nat}

/-- `Mkdir` of a new name returns an attached directory and commits, when the folder is stored. -/
theorem mkdir_commits (name : String) (h : Attached s a) (ha : a < s.nextDir)
    (hadd : s.dserv.Accepts) (hd : (s.dirs a).childDirs name = none)
    (hf : (s.dirs a).files name = none) (hl : (s.dirs a).node.links.find? (·.name = name) = none)
    (hempty : emptyDirNode ∈ s.dserv.blocks)
    (hkey : ∀ n, hash n = hash emptyDirNode → n = emptyDirNode) :
    ∃ x s', Directory.mkdir hash a name s = .ok x s' ∧
      (s'.dirs a).node = (s.dirs a).node.addNodeLinkClean hash name emptyDirNode ∧
      (s'.dirs a).childDirs name = some x ∧ (s'.dirs x).node = emptyDirNode ∧
      Committed hash s' a ∧ Attached s' x := by
  have hcd : Directory.childDir hash a name s = .error .noSuch s :=
    Directory.lookupChild_noLink hd hl
  have hcf : Directory.childFile hash a name s = .error .noSuch s :=
    Directory.lookupChild_noLink hf hl
  let N := (s.dirs a).node.addNodeLinkClean hash name emptyDirNode
  let s₁ := after (addLink hash a name emptyDirNode) s
  have hb₁ : Before a s N s₁ := before_addLink hash name emptyDirNode before_refl
  obtain ⟨s₂, hcl, hcom, hatt, hs₂a⟩ := closeParent_commits hash (h.before ha hb₁) ha hadd
  have hs₂ : s₂.dirs a = { s.dirs a with node := N } := by
    simp [hs₂a, s₁, after, addLink, N]
  have ha₂ : a < s₂.nextDir :=
    after_of_ok hcl ▸ (stable_nextDir (a + 1) a).closeParent le_rfl s₁ ha
  have hmem : emptyDirNode ∈ s₂.dserv.blocks :=
    after_of_ok hcl ▸ (stable_stored hash emptyDirNode a).closeParent le_rfl s₁ hempty
  obtain ⟨n, hget, -⟩ := DAGService.get_of_mem hash hmem
  obtain rfl := hkey n (DAGService.hash_of_get hash hget)
  have hl₂ : (s₂.dirs a).node.links.find? (·.name = name) =
      some ⟨name, hash emptyDirNode⟩ := by
    rw [hs₂, ← List.filter_head?, Node.filter_addNodeLinkClean]
    rfl
  have hcd₂ : (s₂.dirs a).cache .dir name = none := by rw [hs₂]; exact hd
  -- the final `childDir` fetches the folder node, makes a directory of it and caches it
  obtain ⟨s₃, hch, hs₃⟩ : ∃ s₃, Directory.childDir hash a name s₂ = .ok s₂.nextDir s₃ ∧
      s₃.dirs a = (s₂.dirs a).setCache .dir name (some s₂.nextDir) ∧
      s₃.dirs s₂.nextDir = ⟨.dir a, fun _ => none, fun _ => none, emptyDirNode, name⟩ :=
    ⟨_, (Directory.lookupChild_link hcd₂ hl₂ hget rfl).trans (Directory.newChild_make rfl rfl),
      by simp [Function.update_noteq (Nat.ne_of_lt ha₂)],
      by simp [Function.update_noteq (Nat.ne_of_gt ha₂)]⟩
  have hb₃ : Before a s₂ (s₂.dirs a).node s₃ :=
    after_of_ok hch ▸ before_lookupChild hash ha₂ _ _ _ s₂ before_refl
  have hrun : Directory.mkdir hash a name s = .ok s₂.nextDir s₃ := by
    simp [Directory.mkdir, attempt_of_error hcd rfl, attempt_of_error hcf rfl,
      show addLink hash a name emptyDirNode s = .ok () s₁ from rfl, hcl, hch]
  refine ⟨s₂.nextDir, s₃, hrun, by rw [hs₃.1, Directory.node_setCache, hs₂], ?_, ?_, ?_,
    ?_⟩
  · rw [hs₃.1]
    simp [Directory.setCache]
  · rw [hs₃.2]
  · refine hcom.of_agree (fun b hb => ?_) fun n hn =>
      after_of_ok hch ▸ (stable_stored hash n (a + 1)).lookupChild a.lt_succ_self _ _ _ s₂ hn
    rcases Nat.lt_or_eq_of_le hb with hb | rfl
    · rw [hb₃.2.1 b (hb.trans ha₂) (Nat.ne_of_lt hb)]
      exact ⟨rfl, rfl, rfl⟩
    · exact ⟨hb₃.2.2.1, hb₃.2.2.2.1, hb₃.2.2.2.2⟩
  · refine .child (p := a) (by rw [hs₃.2]) ha₂ ?_ (hatt.before ha₂ hb₃)
    rw [hs₃.2, hs₃.1]
    simp [Directory.setCache]

/-- `Mkdir("sub")` at an empty root whose service holds the empty folder node. -/
theorem mkdir_commits_root :
    let hash : Node → Key := fun n => if n = emptyDirNode then "" else "x"
    let s := Heap.root "" ⟨folderPBData, []⟩ (.ofBlocks [emptyDirNode])
    ∃ x s', Directory.mkdir hash 0 "sub" s = .ok x s' ∧
      (s'.dirs 0).node = ⟨folderPBData, [⟨"sub", ""⟩]⟩ ∧
      (s'.dirs 0).childDirs "sub" = some x ∧ (s'.dirs x).node = emptyDirNode ∧
      Committed hash s' 0 ∧ Attached s' x := by
  intro hash s
  have hkey (n : Node) (h : hash n = hash emptyDirNode) : n = emptyDirNode := by
    by_contra hne
    simp [hash, hne] at h
  exact mkdir_commits hash (s := s) (a := 0) "sub" (.root rfl) Nat.one_pos
    (DAGService.accepts_ofBlocks _) rfl rfl rfl (List.mem_singleton_self _) hkey

end Mkdir

end Ipnsfs

end GoIpfs
