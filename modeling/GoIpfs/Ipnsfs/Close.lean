import GoIpfs.Ipnsfs.Representation

/-!
# Flushing an overlay

A write to an overlay replaces its node and closes it into its parent (`flush`). `closeChild`
looks the name up again and relinks whatever overlay `Child` returns, so a flush that returns
links the node written exactly when the parent resolves the name to the flushed overlay
(`flush_links_node`); otherwise the write is lost without an error
(`flush_after_unlink_relinks_other`). The relink appends, so even an unchanged node moves its link
last (`closeChild_settled`).
-/

namespace GoIpfs

namespace Ipnsfs

variable (hash : Node → Key)

/-- The directory at `p` resolves the name of `x` to `x`: `Child` returns it, changing nothing. -/
def Resolves (s : Heap) (p : Nat) : FSNode → Prop
  | .dir x => (s.dirs p).childDirs (s.dirs x).name = some x
  | .file x => (s.dirs p).files (s.files x).name = some x ∧
      (s.dirs p).childDirs (s.files x).name = none ∧
      Directory.linkType hash s p (s.files x).name ≠ some .directory

variable {hash}

/-- A flush that returns relinks the name to what the parent's `Child` returned: the node
written, when the parent resolves the name to the overlay. -/
theorem flush_links_node {s s' : Heap} {x : FSNode} {p : Nat} {nd : Node}
    (hx : s.Allocated x) (hp : p < s.nextDir) (hpar : s.parentOf x = .dir p)
    (h : flush hash x nd s = .ok () s') :
    (∃ c s₁, Directory.child hash p (s.nameOf x) (s.setNode x nd) = .ok c s₁ ∧
      (s'.dirs p).node.links.filter (·.name = s.nameOf x) = [⟨s.nameOf x, hash (s₁.nodeOf c)⟩]) ∧
    (Resolves hash s p x →
      (s'.dirs p).node.links.filter (·.name = s'.nameOf x) = [⟨s'.nameOf x, hash (s'.nodeOf x)⟩] ∧
        s'.nodeOf x = nd) := by
  cases x with
  | dir x =>
    rw [flush_dir] at h
    have hx₁ : (s.setNode (.dir x) nd).dirs x = { s.dirs x with node := nd } := by
      simp [Heap.setNode]
    obtain ⟨hpx, hc⟩ := closeParent_ok (by rw [hx₁]; exact hpar) h
    obtain ⟨c, s₂, hch, hfil⟩ := closeChild_ok (s := s.setNode (.dir x) nd) hp hc
    rw [hx₁] at hch hfil
    refine ⟨⟨c, s₂, hch, hfil⟩, fun hres => ?_⟩
    have hp₁ : (s.setNode (.dir x) nd).dirs p = s.dirs p := by
      simp [Heap.setNode, Function.update_noteq (Nat.ne_of_lt hpx)]
    rw [Directory.child_cachedDir (by rw [hp₁]; exact hres)] at hch
    cases hch
    have hx' : s'.dirs x = { s.dirs x with node := nd } :=
      hx₁ ▸ after_of_ok hc ▸ closeChild_dirs hpx hx
    simp only [Heap.nameOf, Heap.nodeOf, hx₁, hx'] at hfil ⊢
    exact ⟨hfil, trivial⟩
  | file x =>
    rw [flush_file] at h
    simp only [Heap.parentOf, Parent.dir.injEq] at hpar
    rw [hpar] at h
    obtain ⟨c, s₂, hch, hfil⟩ := closeChild_ok (s := s.setNode (.file x) nd) hp h
    refine ⟨⟨c, s₂, hch, hfil⟩, fun ⟨hf, hd, ht⟩ => ?_⟩
    obtain ⟨rfl, rfl⟩ := Directory.child_cachedFile (s := s.setNode (.file x) nd) hd ht hf hch
    have hx₁ : (s.setNode (.file x) nd).files x = { s.files x with node := nd } := by
      simp [Heap.setNode]
    have hx' : s'.files x = { s.files x with node := nd } :=
      hx₁ ▸ after_of_ok h ▸ closeChild_files hx
    simp only [Heap.nameOf, Heap.nodeOf, hx₁, hx'] at hfil ⊢
    exact ⟨hfil, trivial⟩

/-- `Open(["a"], 0)` materializes the file linked as "a"; writing "hi!" to it relinks "a". -/
theorem flush_links_node_opened :
    let s := runCalls sizeHash (Heap.linked sizeHash "a" hiFile) [.open 0 ["a"] 0]
    ∃ s', flush sizeHash (.file 0) hiBang s = .ok () s' ∧ Resolves sizeHash s 0 (.file 0) ∧
      (s'.dirs 0).node.links.filter (·.name = s'.nameOf (.file 0)) =
        [⟨s'.nameOf (.file 0), sizeHash (s'.nodeOf (.file 0))⟩] ∧ s'.nodeOf (.file 0) = hiBang := by
  intro s
  have hs : s.files 0 = ⟨0, hiFile, "a"⟩ ∧ (s.dirs 0).files "a" = some 0 ∧
      (s.dirs 0).childDirs "a" = none ∧ Directory.linkType sizeHash s 0 "a" = some .file ∧
      (s.dirs 0).parent = .sink ∧ s.nextFile = 1 ∧ s.nextDir = 1 :=
    ⟨rfl, by decide⟩
  have hres : Resolves sizeHash s 0 (.file 0) := by simp [Resolves, hs]
  let t := s.setNode (.file 0) hiBang
  have hc : Directory.child sizeHash 0 "a" t = .ok (.file 0) t :=
    Directory.child_of_childFile (Directory.lookupChild_otherKind (s := t) hs.2.2.1 hs.2.2.2.1
      (by decide) (.inr rfl)) rfl (Directory.lookupChild_cached hs.2.1)
  have h : flush sizeHash (.file 0) hiBang s =
      .ok () (t.relink sizeHash 0 "a" (t.nodeOf (.file 0))) := by
    rw [flush_file, hs.1, closeChild_of_accepts hc
      (accepts_runCalls sizeHash (DAGService.accepts_ofBlocks _) _)]
    exact closeParent_sink hs.2.2.2.2.1
  exact ⟨_, h, hres, (flush_links_node (by simp [Heap.Allocated, hs]) (by simp [hs])
    (by simp [Heap.parentOf, hs]) h).2 hres⟩

/-! ## An overlay the parent no longer resolves -/

/-- After `Unlink("a")` and a new file "a", a write to the old file relinks "a" to the new one. -/
theorem flush_after_unlink_relinks_other :
    let s := runCalls sizeHash (Heap.linked sizeHash "a" hiFile)
      [.open 0 ["a"] 0, .unlink 0 "a", .open 0 ["a"] oCreate]
    sizeHash hiBang ≠ sizeHash emptyFileNode ∧
      ∃ s', flush sizeHash (.file 0) hiBang s = .ok () s' ∧ s'.nameOf (.file 0) = "a" ∧
        s'.nodeOf (.file 0) = hiBang ∧ (s'.dirs 0).node.links = [⟨"a", sizeHash emptyFileNode⟩] := by
  intro s
  -- the state `Unlink("a")` leaves: its walk up stops at the root
  let s₁ := runCalls sizeHash (Heap.linked sizeHash "a" hiFile) [.open 0 ["a"] 0]
  let s₂ : Heap := { s₁ with
    dirs := Function.update s₁.dirs 0
      { ((s₁.dirs 0).setCache .dir "a" none).setCache .file "a" none with node := emptyDirNode } }
  have hu : after (Call.run sizeHash (.unlink 0 "a")) s₁ = s₂ := after_of_ok <| by
    rw [Call.run, @Directory.unlink_of_removeNodeLink sizeHash s₁ 0 "a" emptyDirNode rfl]
    exact closeParent_sink (by decide)
  have hs : s = after (Call.run sizeHash (.open 0 ["a"] oCreate)) s₂ := by
    rw [← hu]; rfl
  clear_value s
  subst hs
  generalize hs : after (Call.run sizeHash (.open 0 ["a"] oCreate)) s₂ = s
  have h₃ : s.files 0 = ⟨0, hiFile, "a"⟩ ∧ (s.dirs 0).files "a" = some 1 ∧
      (s.dirs 0).childDirs "a" = none ∧ (s.dirs 0).node.links.find? (·.name = "a") = none ∧
      (s.dirs 0).parent = .sink := by
    subst hs; exact ⟨rfl, by decide⟩
  let t := s.setNode (.file 0) hiBang
  have hc : Directory.child sizeHash 0 "a" t = .ok (.file 1) t :=
    Directory.child_of_childFile (Directory.lookupChild_noLink (s := t) h₃.2.2.1 h₃.2.2.2.1) rfl
      (Directory.lookupChild_cached h₃.2.1)
  have hadd : t.dserv.Accepts := by
    subst hs
    exact accepts_runCalls sizeHash (s := s₂)
      (accepts_runCalls sizeHash (DAGService.accepts_ofBlocks _) _) [.open 0 ["a"] oCreate]
  have h : flush sizeHash (.file 0) hiBang s =
      .ok () (t.relink sizeHash 0 "a" (t.nodeOf (.file 1))) := by
    rw [flush_file, h₃.1, closeChild_of_accepts hc hadd]
    exact closeParent_sink h₃.2.2.2.2
  refine ⟨by decide, _, h, ?_⟩
  subst hs
  decide

/-! ## A flush that changes nothing -/

section Settled

variable (hash)

/-- The link named `name` is the last link of `n`, to `k`, and no other link has the name. -/
def LastLink (n : Node) (name : String) (k : Key) : Prop :=
  ∃ l, n.links = l ++ [⟨name, k⟩] ∧ ∀ x ∈ l, x.name ≠ name

/-- Each directory on the way up is cached in a lower parent and linked there last, freshly. -/
inductive Settled (s : Heap) : Nat → Prop
  | sink {a : Nat} : (s.dirs a).parent = .sink → Settled s a
  | dir {a p : Nat} : (s.dirs a).parent = .dir p → p < a →
      (s.dirs p).childDirs (s.dirs a).name = some a →
      LastLink (s.dirs p).node (s.dirs a).name (hash (s.dirs a).node) → Settled s p → Settled s a

variable {hash} {s : Heap} {a : Nat} {name : String}

/-- `closeChild` of a last, fresh link stores the node and changes no link, if `Add` never fails. -/
theorem closeChild_lastLink {c : FSNode} (hc : Directory.child hash a name s = .ok c s)
    (hl : LastLink (s.dirs a).node name (hash (s.nodeOf c))) (hadd : s.dserv.Accepts) :
    Directory.closeChild hash a name s =
      Directory.closeParent hash a { s with dserv := s.dserv.insert (s.nodeOf c) } := by
  obtain ⟨l, hlinks, hn⟩ := hl
  obtain ⟨hrm, hnode⟩ := Node.relink_of_last hash hlinks hn
  rw [closeChild_of_accepts hc hadd, Heap.relink,
    ← Node.addNodeLinkClean_of_removeNodeLink hash hrm, hnode]
  simp

/-- From a settled directory the walk up returns and changes only the DAG service. -/
theorem closeParent_settled (hs : Settled hash s a) (ds : DAGService) (hadd : ds.Accepts) :
    ∃ ds', Directory.closeParent hash a { s with dserv := ds } = .ok () { s with dserv := ds' } := by
  induction hs generalizing ds with
  | sink h => exact ⟨ds, closeParent_sink h⟩
  | dir h hp hc hl _ ih =>
    rw [closeParent_dir (s := { s with dserv := ds }) h hp,
      closeChild_lastLink (Directory.child_cachedDir (s := { s with dserv := ds }) hc) hl hadd]
    exact ih _ (hadd.insert _)

/-- `closeChild` moves the link of the name last; on a settled chain it changes only the service. -/
theorem closeChild_settled {c : FSNode} (ha : a < s.nextDir)
    (hc : Directory.child hash a name s = .ok c s) :
    (∀ s', Directory.closeChild hash a name s = .ok () s' →
      (s'.dirs a).node.links =
        (s.dirs a).node.links.filter (·.name ≠ name) ++ [⟨name, hash (s.nodeOf c)⟩]) ∧
    (s.dserv.Accepts → Settled hash s a → LastLink (s.dirs a).node name (hash (s.nodeOf c)) →
      ∃ ds, Directory.closeChild hash a name s = .ok () { s with dserv := ds }) := by
  refine ⟨fun s' h => ?_, fun hadd hs hl => ?_⟩
  · obtain ⟨c', s₁, hc', hl⟩ := closeChild_links ha h
    rw [hc] at hc'
    cases hc'
    exact hl
  · rw [closeChild_lastLink hc hl hadd]
    exact closeParent_settled hs _ (hadd.insert _)

/-- After `Child("x")` on a root linking only "x", `closeChild("x")` changes no node. -/
theorem closeChild_settled_linked :
    let s := runCalls sizeHash (Heap.linked sizeHash "x" emptyDirNode) [.child 0 "x"]
    0 < s.nextDir ∧ Directory.child sizeHash 0 "x" s = .ok (.dir 1) s ∧
      ∃ ds, Directory.closeChild sizeHash 0 "x" s = .ok () { s with dserv := ds } := by
  intro s
  have hs : s.nextDir = 2 ∧ (s.dirs 0).childDirs "x" = some 1 ∧ (s.dirs 0).parent = .sink ∧
      (s.dirs 0).node.links = [⟨"x", sizeHash (s.dirs 1).node⟩] := by
    decide
  have hc : Directory.child sizeHash 0 "x" s = .ok (.dir 1) s := Directory.child_cachedDir hs.2.1
  exact ⟨by omega, hc, (closeChild_settled (by omega) hc).2
    (accepts_runCalls sizeHash (DAGService.accepts_ofBlocks _) _) (.sink hs.2.2.1)
    ⟨[], by simpa [Heap.nodeOf] using hs.2.2.2, by simp⟩⟩

/-- After `Child("x")` on a root linking "x" then "y", `closeChild("x")` moves "x" after "y". -/
theorem closeChild_moves_link_last :
    let s := runCalls sizeHash
      (Heap.root "" ⟨folderPBData, [⟨"x", sizeHash emptyDirNode⟩, ⟨"y", sizeHash hiFile⟩]⟩
        (.ofBlocks [emptyDirNode, hiFile])) [.child 0 "x"]
    (s.dirs 0).childDirs "x" = some 1 ∧ sizeHash (s.dirs 1).node = sizeHash emptyDirNode ∧
      (s.dirs 0).node.links = [⟨"x", sizeHash emptyDirNode⟩, ⟨"y", sizeHash hiFile⟩] ∧
      ∃ s', Directory.closeChild sizeHash 0 "x" s = .ok () s' ∧
        (s'.dirs 0).node.links = [⟨"y", sizeHash hiFile⟩, ⟨"x", sizeHash emptyDirNode⟩] := by
  intro s
  have hs : (s.dirs 0).childDirs "x" = some 1 ∧ sizeHash (s.dirs 1).node = sizeHash emptyDirNode ∧
      (s.dirs 0).node.links = [⟨"x", sizeHash emptyDirNode⟩, ⟨"y", sizeHash hiFile⟩] ∧
      (s.dirs 0).parent = .sink := by
    decide
  have h : Directory.closeChild sizeHash 0 "x" s = _ :=
    (closeChild_of_accepts (Directory.child_cachedDir hs.1)
    (accepts_runCalls sizeHash (DAGService.accepts_ofBlocks _) _)).trans
    (closeParent_sink (by simpa using hs.2.2.2))
  exact ⟨hs.1, hs.2.1, hs.2.2.1, _, h, by decide⟩

end Settled

end Ipnsfs

end GoIpfs
