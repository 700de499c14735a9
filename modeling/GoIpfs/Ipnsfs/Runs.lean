import GoIpfs.Ipnsfs.WalkUp

/-!
# Writes commit in every reached state

In every state a run of calls reaches from a root made by `NewDirectory`, the root stays a root
(`root_parent_runCalls`), a directory reached by cached lookups is attached and its parents name
the path (`Reached.upward`), and a write to it commits up to the root, where the path looked up
leads through the DAG to the node written (`runCalls_write_resolves`).
-/

namespace GoIpfs

namespace Ipnsfs

variable {hash : Node → Key}

/-! ## What a directory keeps -/

section View

variable {α : Type} (f : Directory → α) {x : Nat} {v : α}

/-- A change to a directory that keeps its view `f` keeps it at every address. -/
theorem modifyDir_view {g : Directory → Directory} (hg : ∀ d, f (g d) = f d) (a : Nat) :
    Preserves (fun s => x < s.nextDir ∧ f (s.dirs x) = v) (modifyDir a g) := by
  intro s hs
  refine ⟨hs.1, ?_⟩
  by_cases hxa : x = a
  · subst hxa
    simp [after, hg, hs.2]
  · simp [after, Function.update_noteq hxa, hs.2]

/-- A view of a directory its caches and node do not change is kept at every allocated address. -/
theorem stable_view (hc : ∀ d g, CachesOnly g → f (g d) = f d)
    (hn : ∀ (d : Directory) n, f { d with node := n } = f d) (x : Nat) (v : α) (b : Nat) :
    Stable hash (fun s => x < s.nextDir ∧ f (s.dirs x) = v) b := by
  refine ⟨fun a _ g hg => modifyDir_view f (fun d => hc d g hg) a, fun d s hs => ?_,
    fun _ _ hs => hs, fun _ _ hs => hs, fun a _ name s hs => ?_,
    fun a _ _ _ => modifyDir_view f (fun d => hn d _) a⟩
  · refine ⟨by simp [after]; omega, ?_⟩
    simp [after, Function.update_noteq (Nat.ne_of_lt hs.1), hs.2]
  · rw [after_removeLink]
    split
    · exact modifyDir_view f (fun d => hn d _) a s hs
    · exact hs

end View

variable (hash) in
/-- What a directory closes into and its name: the walk up and the lookups keep them. -/
theorem stable_parent_name (x : Nat) (q : Parent × String) (b : Nat) :
    Stable hash (fun s => x < s.nextDir ∧ ((s.dirs x).parent, (s.dirs x).name) = q) b :=
  stable_view (fun d => (d.parent, d.name)) (fun d _ hg => Prod.ext (hg d).2.1 (hg d).2.2)
    (fun _ _ => rfl) x q b

/-- No call changes what a directory closes into. -/
theorem preserves_parent (x : Nat) (q : Parent) (c : Call) :
    Preserves (fun s => x < s.nextDir ∧ (s.dirs x).parent = q) (c.run hash) :=
  Stable.call
    (fun b => stable_view Directory.parent (fun d _ hg => (hg d).2.1) (fun _ _ => rfl) x q b)
    (fun _ n =>
      modifyDir_view Directory.parent (g := fun d => { d with name := n }) (fun _ => rfl) _)
    (fun _ _ _ hs => hs) c

/-- The root of a run stays a root. -/
theorem root_parent_runCalls (name : String) (node : Node) (ds : DAGService) (calls : List Call) :
    0 < (runCalls hash (Heap.root name node ds) calls).nextDir ∧
      ((runCalls hash (Heap.root name node ds) calls).dirs 0).parent = .sink :=
  runCalls_of_preserves (preserves_parent 0 .sink) ⟨Nat.one_pos, rfl⟩ calls

/-! ## Reached directories -/

/-- The directories reached from `r` by lookups the caches hold, with the names looked up. -/
inductive Reached (s : Heap) (r : Nat) : List String → Nat → Prop
  | root : Reached s r [] r
  | child {path : List String} {a x : Nat} {name : String} (h : Reached s r path a)
      (hc : (s.dirs a).childDirs name = some x) : Reached s r (path ++ [name]) x

/-- The way up from the directory at `x` to `r`, its names read downwards. -/
inductive Upward (s : Heap) (r : Nat) : List String → Nat → Prop
  | root : Upward s r [] r
  | child {path : List String} {p x : Nat} (h : Upward s r path p)
      (hpar : (s.dirs x).parent = .dir p) (hp : p < x) : Upward s r (path ++ [(s.dirs x).name]) x

variable {s t : Heap} {r x : Nat} {path : List String}

/-- In a tree, a directory reached from an allocated one is allocated; its way up names the path. -/
theorem Reached.upward (hs : Tree s) (hr : r < s.nextDir) (h : Reached s r path x) :
    x < s.nextDir ∧ Upward s r path x ∧ (Attached s r → Attached s x) := by
  induction h with
  | root => exact ⟨hr, .root, id⟩
  | @child path a x name _ hc ih =>
    obtain ⟨ha, hup, hatt⟩ := ih
    obtain ⟨hx, hpar, hname⟩ := hs.cache a ha .dir name x hc
    have hp : a < x := hs.parent_lt x hx a hpar
    refine ⟨hx, hname ▸ .child hup hpar hp, fun hr => .child hpar hp ?_ (hatt hr)⟩
    rw [hname]
    exact hc

/-- The way up holds in a state that agrees on the parents and names below. -/
theorem Upward.of_agree (h : Upward s r path x)
    (ht : ∀ b ≤ x,
      (t.dirs b).parent = (s.dirs b).parent ∧ (t.dirs b).name = (s.dirs b).name) :
    Upward t r path x := by
  induction h with
  | root => exact .root
  | @child path p x _ hpar hp ih =>
    rw [← (ht x le_rfl).2]
    exact .child (ih fun b hb => ht b (hb.trans hp.le)) ((ht x le_rfl).1.trans hpar) hp

/-- Committed along a way up: its path leads from the top's node to the node of `x`. -/
theorem Committed.resolve_upward (hc : Committed hash s x) (hu : Upward s r path x)
    (hn : s.dserv.NoCollision hash) :
    Ipnsfs.resolve hash s.dserv (s.dirs r).node path = some (s.dirs x).node := by
  induction hu with
  | root => rfl
  | @child path p x _ hpar _ ih =>
    cases hc with
    | root h => rw [hpar] at h; cases h
    | child h _ hl hmem up =>
      rw [hpar] at h
      cases h
      exact resolve_append_of_link (ih up) hl hmem hn

/-! ## Runs -/

variable (hash)

/-- In every state a run from a root reaches, a write to a reached directory returns and commits. -/
theorem runCalls_write_resolves {name : String} {node : Node} {ds : DAGService}
    (hadd : ds.Accepts) (calls : List Call) (hc : OnAllocated hash (Heap.root name node ds) calls)
    (hx : Reached (runCalls hash (Heap.root name node ds) calls) 0 path x) (nd : Node) :
    ∃ s', flush hash (.dir x) nd (runCalls hash (Heap.root name node ds) calls) = .ok () s' ∧
      (s'.dirs x).node = nd ∧ Committed hash s' x ∧
      (s'.dserv.NoCollision hash → resolve hash s'.dserv (s'.dirs 0).node path = some nd) := by
  generalize hs : runCalls hash (Heap.root name node ds) calls = s at hx
  have htree : Tree s := hs ▸ tree_runCalls (tree_root _ _ _) calls hc
  obtain ⟨h0, hsink⟩ : 0 < s.nextDir ∧ (s.dirs 0).parent = .sink :=
    hs ▸ root_parent_runCalls name node ds calls
  obtain ⟨hxa, hup, hatt⟩ := hx.upward htree h0
  have hadd' : s.dserv.Accepts := hs ▸ accepts_runCalls hash hadd calls
  let s₁ : Heap := s.setNode (.dir x) nd
  obtain ⟨s', hcl, hcom, -, hs'⟩ :=
    closeParent_commits hash ((hatt (.root hsink)).update_node (t := s₁) rfl) hxa hadd'
  have hnd : (s'.dirs x).node = nd := by simp [hs', s₁, Heap.setNode]
  have hagree (b : Nat) (hb : b ≤ x) :
      (s'.dirs b).parent = (s.dirs b).parent ∧ (s'.dirs b).name = (s.dirs b).name := by
    have h₁ : b < s₁.nextDir ∧ ((s₁.dirs b).parent, (s₁.dirs b).name) =
        ((s.dirs b).parent, (s.dirs b).name) := by
      refine ⟨lt_of_le_of_lt hb hxa, ?_⟩
      by_cases hbx : b = x
      · subst hbx
        simp [s₁, Heap.setNode]
      · simp [s₁, Heap.setNode, Function.update_noteq hbx]
    have h₂ := (stable_parent_name hash b _ x).closeParent le_rfl s₁ h₁
    rw [after_of_ok hcl] at h₂
    exact Prod.mk.inj h₂.2
  refine ⟨s', hcl, hnd, hcom, fun hn => ?_⟩
  rw [← hnd]
  exact hcom.resolve_upward (hup.of_agree hagree) hn

/-- Writing a folder to the directory a root links as "x", once looked up. -/
theorem runCalls_write_resolves_linked :
    let s := runCalls sizeHash (Heap.linked sizeHash "x" emptyDirNode) [.child 0 "x"]
    let nd : Node := ⟨folderPBData, [⟨"y", sizeHash hiFile⟩]⟩
    Reached s 0 ["x"] 1 ∧ ∃ s', flush sizeHash (.dir 1) nd s = .ok () s' ∧
      (s'.dirs 1).node = nd ∧ Committed sizeHash s' 1 ∧
      (s'.dserv.NoCollision sizeHash →
        resolve sizeHash s'.dserv (s'.dirs 0).node ["x"] = some nd) :=
  have hx : Reached (runCalls sizeHash (Heap.linked sizeHash "x" emptyDirNode) [.child 0 "x"]) 0
      ["x"] 1 := .child .root (by decide)
  ⟨hx,
    runCalls_write_resolves sizeHash (DAGService.accepts_ofBlocks _) [.child 0 "x"]
      (by simp only [OnAllocated]; decide) hx _⟩

end Ipnsfs

end GoIpfs
