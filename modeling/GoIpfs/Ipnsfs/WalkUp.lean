import GoIpfs.Ipnsfs.Tree

/-!
# The walk up commits

Every mutation of a directory ends with `d.parent.closeChild(d.name)`. When the way up runs
through the caches (`Attached`), each lookup finds the directory the walk comes from, so the walk
returns and leaves every directory on the way linked by its parent with exactly one link of its
name, to its stored node (`closeParent_commits`); when no two stored nodes share a key, the
names from the root lead through the DAG to the node written (`Committed.resolve`,
`flush_dir_commits`). A refused `Add` stops the walk (`flush_dir_refused`). A lookup changes only
the caches of its directory, so what `childDir` reaches from an attached directory is attached
(`childDir_attached`).
-/

namespace GoIpfs

namespace Ipnsfs

variable (hash : Node → Key)

/-- The way up from `a` runs through the caches: each directory is cached in a lower parent. -/
inductive Attached (s : Heap) : Nat → Prop
  | root {a : Nat} (h : (s.dirs a).parent = .sink) : Attached s a
  | child {a p : Nat} (h : (s.dirs a).parent = .dir p) (hp : p < a)
      (hc : (s.dirs p).childDirs (s.dirs a).name = some a) (up : Attached s p) : Attached s a

/-- Every directory on the way up from `a` is linked by its parent once, to its stored node. -/
inductive Committed (s : Heap) : Nat → Prop
  | root {a : Nat} (h : (s.dirs a).parent = .sink) : Committed s a
  | child {a p : Nat} (h : (s.dirs a).parent = .dir p) (hp : p < a)
      (hl : (s.dirs p).node.links.filter (·.name = (s.dirs a).name) =
        [⟨(s.dirs a).name, hash (s.dirs a).node⟩])
      (stored : (s.dirs a).node ∈ s.dserv.blocks) (up : Committed s p) : Committed s a

/-- One step of a lookup by path in the DAG: the first link of the name, fetched. -/
def lookupLink (ds : DAGService) (nd : Node) (name : String) : Option Node := do
  let lnk ← nd.links.find? (·.name = name)
  (ds.get hash lnk.hash).toOption

/-- The node a path of names leads to from `nd` in the DAG the service holds. -/
def resolve (ds : DAGService) (nd : Node) (path : List String) : Option Node :=
  path.foldlM (lookupLink hash ds) nd

variable {hash}

/-- A path one name longer leads through the first link of the name, when no keys collide. -/
theorem resolve_append_of_find {ds : DAGService} {n m c : Node} {path : List String}
    {name : String} (hres : resolve hash ds n path = some m)
    (hfind : m.links.find? (·.name = name) = some ⟨name, hash c⟩) (hmem : c ∈ ds.blocks)
    (hc : ds.NoCollision hash) : resolve hash ds n (path ++ [name]) = some c := by
  obtain ⟨c', hget, hn⟩ := DAGService.get_of_mem hash hmem
  rw [Ipnsfs.resolve, List.foldlM_append, ← Ipnsfs.resolve, hres]
  simp [lookupLink, hfind, hget, hn hc, Except.toOption]

/-- A path one name longer leads through the one link of the name, when no keys collide. -/
theorem resolve_append_of_link {ds : DAGService} {n m c : Node} {path : List String}
    {name : String} (hres : resolve hash ds n path = some m)
    (hl : m.links.filter (·.name = name) = [⟨name, hash c⟩]) (hmem : c ∈ ds.blocks)
    (hc : ds.NoCollision hash) : resolve hash ds n (path ++ [name]) = some c :=
  resolve_append_of_find hres (by rw [← List.filter_head?, hl]; rfl) hmem hc

/-- What is committed is what the DAG shows, when no two stored nodes share a key. -/
theorem Committed.resolve {s : Heap} {a : Nat} (h : Committed hash s a) :
    ∃ r path, (s.dirs r).parent = .sink ∧ (s.dserv.NoCollision hash →
      resolve hash s.dserv (s.dirs r).node path = some (s.dirs a).node) := by
  induction h with
  | root hr => exact ⟨_, [], hr, fun _ => rfl⟩
  | @child a p _ _ hl hmem _ ih =>
    obtain ⟨r, path, hr, hres⟩ := ih
    exact ⟨r, path ++ [(s.dirs a).name], hr,
      fun hc => resolve_append_of_link (hres hc) hl hmem hc⟩

/-! ## Frames -/

section Frame

variable {s t : Heap} {a : Nat}

/-- The way up holds in a state that agrees on it up to `a`. -/
theorem Attached.of_agree (ha : Attached s a)
    (hp : ∀ b ≤ a, (t.dirs b).parent = (s.dirs b).parent ∧ (t.dirs b).name = (s.dirs b).name)
    (hc : ∀ b < a, (t.dirs b).childDirs = (s.dirs b).childDirs) : Attached t a := by
  induction ha with
  | root h => exact .root ((hp _ le_rfl).1.trans h)
  | @child a p h hpa hcp _ ih =>
    refine .child ((hp a le_rfl).1.trans h) hpa ?_ (ih (fun b hb => hp b (hb.trans hpa.le))
      fun b hb => hc b (hb.trans hpa))
    rw [hc p hpa, (hp a le_rfl).2]
    exact hcp

/-- A change of the node of one directory keeps the way up from every directory. -/
theorem Attached.update_node (ha : Attached s a) {x : Nat} {n : Node}
    (ht : t.dirs = Function.update s.dirs x { s.dirs x with node := n }) : Attached t a := by
  have hx (b : Nat) : (t.dirs b).parent = (s.dirs b).parent ∧
      (t.dirs b).name = (s.dirs b).name ∧ (t.dirs b).childDirs = (s.dirs b).childDirs := by
    rw [ht]
    by_cases hb : b = x
    · subst hb; simp
    · simp [Function.update_noteq hb]
  exact ha.of_agree (fun b _ => ⟨(hx b).1, (hx b).2.1⟩) fun b _ => (hx b).2.2

/-- The commit holds in a state that agrees below and keeps every stored node. -/
theorem Committed.of_agree (h : Committed hash s a)
    (hd : ∀ b ≤ a, (t.dirs b).parent = (s.dirs b).parent ∧
      (t.dirs b).name = (s.dirs b).name ∧ (t.dirs b).node = (s.dirs b).node)
    (hds : ∀ n ∈ s.dserv.blocks, n ∈ t.dserv.blocks) : Committed hash t a := by
  induction h with
  | root hr => exact .root ((hd _ le_rfl).1.trans hr)
  | @child a p hpar hp hl hmem _ ih =>
    obtain ⟨hpa, hna, hnd⟩ := hd a le_rfl
    obtain ⟨-, -, hnp⟩ := hd p hp.le
    refine .child (hpa.trans hpar) hp ?_ (hnd ▸ hds _ hmem) (ih fun b hb => hd b (hb.trans hp.le))
    rw [hna, hnd, hnp]
    exact hl

variable (hash) in
/-- Nothing takes a node out of the DAG service. -/
theorem stable_stored (nd : Node) (b : Nat) : Stable hash (fun s => nd ∈ s.dserv.blocks) b := by
  refine ⟨fun _ _ _ _ _ hs => hs, fun _ _ hs => hs, fun _ _ hs => hs,
    fun _ _ hs => List.mem_cons_of_mem _ hs, fun a _ name s hs => ?_, fun _ _ _ _ _ hs => hs⟩
  rw [after_removeLink]
  split <;> exact hs

end Frame

/-! ## One step of the walk -/

section Step

variable {β : Type} {s : Heap} {a p x : Nat} {name : String}

/-- `closeChild` of a cached directory's name stores and relinks its node, then walks up. -/
theorem closeChild_cachedDir (hc : (s.dirs p).childDirs name = some x) (hadd : s.dserv.Accepts) :
    Directory.closeChild hash p name s =
      Directory.closeParent hash p (s.relink hash p name (s.dirs x).node) :=
  closeChild_of_accepts (Directory.child_cachedDir hc) hadd

end Step

/-! ## The walk up -/

section Walk

variable (hash)

/-- From an attached directory the walk up returns and commits, when `Add` never fails. -/
theorem closeParent_commits {s : Heap} {a : Nat} (h : Attached s a) (ha : a < s.nextDir)
    (hadd : s.dserv.Accepts) :
    ∃ s', Directory.closeParent hash a s = .ok () s' ∧ Committed hash s' a ∧
      Attached s' a ∧ s'.dirs a = s.dirs a := by
  induction a using Nat.strong_induction_on generalizing s with
  | _ a ih =>
    cases h with
    | root hr => exact ⟨s, closeParent_sink hr, .root hr, .root hr, rfl⟩
    | @child _ p hpar hpa hc up =>
      rw [closeParent_dir hpar hpa, closeChild_cachedDir hc hadd]
      let s₁ := s.relink hash p (s.dirs a).name (s.dirs a).node
      obtain ⟨s', hcl, hcom, hatt, -⟩ :=
        ih p hpa (up.update_node (t := s₁) rfl) (hpa.trans ha) (hadd.insert _)
      have hs'a : s'.dirs a = s.dirs a := by
        rw [← after_of_ok hcl, closeParent_dirs (s := s₁) hpa.le ha,
          Heap.relink_ne _ (Nat.ne_of_gt hpa)]
      have hs'p : s'.dirs p = { s.dirs p with
          node := (s.dirs p).node.addNodeLinkClean hash (s.dirs a).name (s.dirs a).node } := by
        rw [← after_of_ok hcl, closeParent_dirs (s := s₁) le_rfl (hpa.trans ha),
          Heap.relink_self]
      have hst : (s.dirs a).node ∈ s'.dserv.blocks := after_of_ok hcl ▸
        (stable_stored hash _ p).closeParent le_rfl s₁ (List.mem_cons_self _ _)
      refine ⟨s', hcl, .child (hs'a ▸ hpar) hpa ?_ (hs'a ▸ hst) hcom,
        .child (hs'a ▸ hpar) hpa ?_ hatt, hs'a⟩
      · rw [hs'a, hs'p]
        exact Node.filter_addNodeLinkClean hash _ _ _
      · rw [hs'a, hs'p]
        exact hc

/-- A write to an attached directory returns and commits, when `Add` never fails. -/
theorem flush_dir_commits {s : Heap} {x : Nat} (h : Attached s x) (hx : x < s.nextDir)
    (hadd : s.dserv.Accepts) (nd : Node) :
    ∃ s', flush hash (.dir x) nd s = .ok () s' ∧ (s'.dirs x).node = nd ∧
      Committed hash s' x ∧ ∃ r path, (s'.dirs r).parent = .sink ∧
        (s'.dserv.NoCollision hash → resolve hash s'.dserv (s'.dirs r).node path = some nd) := by
  obtain ⟨s', hcl, hcom, -, hs'⟩ :=
    closeParent_commits hash (h.update_node (t := s.setNode (.dir x) nd) rfl) hx hadd
  have hnd : (s'.dirs x).node = nd := by simp [hs', Heap.setNode]
  exact ⟨s', hcl, hnd, hcom, hnd ▸ hcom.resolve⟩

/-- A write of a folder linking "y" to the folder a root links as "x", once cached. -/
theorem flush_dir_commits_child :
    let s := runCalls sizeHash (Heap.linked sizeHash "x" emptyDirNode) [.child 0 "x"]
    let nd : Node := ⟨folderPBData, [⟨"y", sizeHash hiFile⟩]⟩
    Attached s 1 ∧ 1 < s.nextDir ∧ ∃ s', flush sizeHash (.dir 1) nd s = .ok () s' ∧
      (s'.dirs 1).node = nd ∧ Committed sizeHash s' 1 ∧
      ∃ r path, (s'.dirs r).parent = .sink ∧ (s'.dserv.NoCollision sizeHash →
        resolve sizeHash s'.dserv (s'.dirs r).node path = some nd) :=
  have h : Attached (runCalls sizeHash (Heap.linked sizeHash "x" emptyDirNode) [.child 0 "x"]) 1 :=
    .child (p := 0) (by decide) (by decide) (by decide) (.root (by decide))
  ⟨h, by decide, flush_dir_commits sizeHash h (by decide)
    (accepts_runCalls sizeHash (DAGService.accepts_ofBlocks _) _) _⟩

end Walk

/-! ## The steps before the walk up -/

section Before

variable {s : Heap} {a : Nat} {N : Node}

/-- What the steps of a method on `a` before its walk up leave of `s`, with `a`'s node `N`. -/
def Before (a : Nat) (s : Heap) (N : Node) (t : Heap) : Prop :=
  s.nextDir ≤ t.nextDir ∧ (∀ b < s.nextDir, b ≠ a → t.dirs b = s.dirs b) ∧
    (t.dirs a).parent = (s.dirs a).parent ∧ (t.dirs a).name = (s.dirs a).name ∧
    (t.dirs a).node = N

theorem before_refl : Before a s (s.dirs a).node s :=
  ⟨le_rfl, fun _ _ _ => rfl, rfl, rfl, rfl⟩

theorem before_make (ha : a < s.nextDir) (k : Kind) (name : String) (nd : Node) :
    Preserves (Before a s N) (k.make name nd a) := by
  intro t ht
  cases k
  · have hne {b : Nat} (hb : b < s.nextDir) : b ≠ t.nextDir := by have := ht.1; omega
    simp only [Kind.make, newDirectory, after, allocDir_apply, Before,
      Function.update_noteq (hne ha)]
    exact ⟨Nat.le_succ_of_le ht.1, fun b hb hba => (Function.update_noteq (hne hb) _ _).trans
      (ht.2.1 b hb hba), ht.2.2⟩
  · exact ht

theorem before_setCache (k : Kind) (name : String) (o : Option Nat) :
    Preserves (Before a s N) (modifyDir a (·.setCache k name o)) := fun t ht =>
  ⟨ht.1, fun b hb hba => (Function.update_noteq hba _ _).trans (ht.2.1 b hb hba),
    by simpa [after] using ht.2.2.1, by simpa [after] using ht.2.2.2.1,
    by simpa [after] using ht.2.2.2.2⟩

variable (hash)

/-- A lookup at `a` changes, among the allocated directories, only the caches of `a`. -/
theorem before_lookupChild (ha : a < s.nextDir) (k : Kind) (other : Error) (name : String) :
    Preserves (Before a s N) (Directory.lookupChild hash k other a name) := by
  unfold Directory.lookupChild
  refine .bind (.getDir a) fun d => ?_
  split
  · exact .pure _
  · split
    · exact .throw _
    · refine .bind (.fetch hash _) fun nd => .bind (.liftExcept _) fun i => ?_
      unfold Directory.newChild
      split_ifs
      · exact .bind (before_make ha k name nd) fun x =>
          .bind (before_setCache k name _) fun _ => .pure x
      all_goals exact .throw _

/-- A clean insert at `a` changes only the node of `a`. -/
theorem before_addLink {t : Heap} (name : String) (nd : Node) (ht : Before a s N t) :
    Before a s (N.addNodeLinkClean hash name nd) (after (addLink hash a name nd) t) :=
  ⟨ht.1, fun b hb hba => (Function.update_noteq hba _ _).trans (ht.2.1 b hb hba),
    by simpa [after, addLink] using ht.2.2.1, by simpa [after, addLink] using ht.2.2.2.1,
    by simp [after, addLink, ht.2.2.2.2]⟩

variable {hash}

/-- The way up from `a` holds after the steps before the walk up. -/
theorem Attached.before {t : Heap} (h : Attached s a) (ha : a < s.nextDir)
    (ht : Before a s N t) : Attached t a := by
  have hb {b : Nat} (hb : b < a) : t.dirs b = s.dirs b := ht.2.1 b (hb.trans ha) (Nat.ne_of_lt hb)
  refine h.of_agree (fun b hba => ?_) fun b hba => by rw [hb hba]
  rcases Nat.lt_or_eq_of_le hba with hba | rfl
  · rw [hb hba]
    exact ⟨rfl, rfl⟩
  · exact ⟨ht.2.2.1, ht.2.2.2.1⟩

/-- In a tree, `childDir` changes only the caches of the directory asked, and returns a child
cached there under its name, attached when the directory asked is. -/
theorem childDir_attached {s s' : Heap} {a x : Nat} {name : String} (hs : Tree s)
    (ha : a < s.nextDir) (hc : Directory.childDir hash a name s = .ok x s') :
    (∀ b < s.nextDir, b ≠ a → s'.dirs b = s.dirs b) ∧ (s'.dirs a).node = (s.dirs a).node ∧
      (s'.dirs a).parent = (s.dirs a).parent ∧ (s'.dirs a).name = (s.dirs a).name ∧
      x < s'.nextDir ∧ (s'.dirs x).parent = .dir a ∧ (s'.dirs x).name = name ∧
      (s'.dirs a).childDirs name = some x ∧ (Attached s a → Attached s' x) := by
  have ht : TreeAt a s' := after_of_ok hc ▸ treeAt_lookupChild hash _ _ _ s ⟨hs, ha⟩
  have hcache := lookupChild_cache hash hc
  obtain ⟨hx, hpar, hname⟩ := ht.1.cache a ht.2 .dir name x hcache
  have hfr : Before a s (s.dirs a).node s' :=
    after_of_ok hc ▸ before_lookupChild hash ha _ _ _ s before_refl
  refine ⟨hfr.2.1, hfr.2.2.2.2, hfr.2.2.1, hfr.2.2.2.1, hx, hpar, hname, hcache,
    fun h => .child hpar (ht.1.parent_lt x hx a hpar) ?_ (h.before ha hfr)⟩
  rw [hname]
  exact hcache

/-- `Child("x")` from a root that links "x" to a folder returns an attached overlay. -/
theorem childDir_attached_linked :
    let s := Heap.linked sizeHash "x" emptyDirNode
    Tree s ∧ 0 < s.nextDir ∧ Attached s 0 ∧
      ∃ s', Directory.childDir sizeHash 0 "x" s = .ok 1 s' ∧ (s'.dirs 1).parent = .dir 0 ∧
        (s'.dirs 0).childDirs "x" = some 1 ∧ Attached s' 1 := by
  obtain ⟨s', hc⟩ : ∃ s', Directory.childDir sizeHash 0 "x"
      (Heap.linked sizeHash "x" emptyDirNode) = .ok 1 s' := ⟨_, rfl⟩
  obtain ⟨-, -, -, -, -, hpar, -, hcache, hatt⟩ :=
    childDir_attached (tree_root _ _ _) (by decide) hc
  exact ⟨tree_root _ _ _, by decide, .root rfl, s', hc, hpar, hcache, hatt (.root rfl)⟩

end Before

end Ipnsfs

end GoIpfs
