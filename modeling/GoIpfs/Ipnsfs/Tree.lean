import GoIpfs.Ipnsfs.Stable

/-!
# The overlay tree

The overlays a root materializes form a tree, and the caches point down it (`Tree`): every
directory closes into one allocated before it, and a cache entry points at an allocated overlay of
its kind that closes into the caching directory, which links a cached child directory's name.
Every call made on an allocated directory keeps the tree, whether it returns or fails
(`tree_runCalls`), and in a tree the walk up always goes to a lower address, so the guard the
model puts on `closeParent` never fires (`closeParent_of_tree`, `tree_of_runCalls`).
-/

namespace GoIpfs

namespace Ipnsfs

/-- Where an entry `n ↦ x` of a cache of `a` points: an overlay of its kind that closes into `a`. -/
def Points (s : Heap) (a : Nat) (n : String) : Kind → Nat → Prop
  | .dir, x => x < s.nextDir ∧ (s.dirs x).parent = .dir a ∧ (s.dirs x).name = n
  | .file, f => f < s.nextFile ∧ (s.files f).parent = a

/-- The overlays form a tree whose caches point down it. -/
structure Tree (s : Heap) : Prop where
  /-- Every directory closes into one allocated before it. -/
  parent_lt : ∀ a < s.nextDir, ∀ p, (s.dirs a).parent = .dir p → p < a
  /-- Every cache entry points at an overlay that closes into the directory. -/
  cache : ∀ a < s.nextDir, ∀ k n x, (s.dirs a).cache k n = some x → Points s a n k x
  /-- Every cached child directory is linked under its name. -/
  linked : ∀ a < s.nextDir, ∀ n x, (s.dirs a).childDirs n = some x →
    n ∈ (s.dirs a).node.names
  /-- Every file closes into an allocated directory. -/
  file_parent : ∀ f < s.nextFile, (s.files f).parent < s.nextDir

/-- The tree, with the directory at `a` allocated: the states a method on `a` starts from. -/
def TreeAt (a : Nat) (s : Heap) : Prop := Tree s ∧ a < s.nextDir

/-- The root of `NewDirectory` is a tree. -/
theorem tree_root (name : String) (node : Node) (dserv : DAGService) :
    Tree (Heap.root name node dserv) where
  parent_lt _ _ _ h := by simp [Heap.root] at h
  cache _ _ k _ _ h := by cases k <;> simp [Heap.root, Directory.cache] at h
  linked _ _ _ _ h := by simp [Heap.root] at h
  file_parent _ h := by simp [Heap.root] at h

/-! ## The heap operations -/

section Heap

variable {s : Heap} {a : Nat}

theorem cache_setCache_eq_some {d : Directory} {k k' : Kind} {n n' : String} {o : Option Nat}
    {x : Nat} (h : (d.setCache k n o).cache k' n' = some x) :
    (k' = k ∧ n' = n ∧ o = some x) ∨ ¬(k' = k ∧ n' = n) ∧ d.cache k' n' = some x := by
  rw [Directory.cache_setCache] at h
  split_ifs at h with hk
  · exact .inl ⟨hk.1, hk.2, h⟩
  · exact .inr ⟨hk, h⟩

/-- Replacing a directory keeps the tree if its entries point right and its children are linked. -/
theorem Tree.update (hs : Tree s) {d : Directory} (hp : d.parent = (s.dirs a).parent)
    (hn : d.name = (s.dirs a).name) (hc : ∀ k n x, d.cache k n = some x → Points s a n k x)
    (hl : ∀ n x, d.childDirs n = some x → n ∈ d.node.names) :
    Tree { s with dirs := Function.update s.dirs a d } := by
  have hpar (x : Nat) : (Function.update s.dirs a d x).parent = (s.dirs x).parent := by
    by_cases h : x = a
    · subst h; simpa using hp
    · simp [Function.update_noteq h]
  have hname (x : Nat) : (Function.update s.dirs a d x).name = (s.dirs x).name := by
    by_cases h : x = a
    · subst h; simpa using hn
    · simp [Function.update_noteq h]
  have hpts (b : Nat) (n : String) (k : Kind) (x : Nat) (h : Points s b n k x) :
      Points { s with dirs := Function.update s.dirs a d } b n k x := by
    cases k
    · exact ⟨h.1, (hpar x).trans h.2.1, (hname x).trans h.2.2⟩
    · exact h
  refine ⟨fun b hb p h => hs.parent_lt b hb p ((hpar b).symm.trans h), fun b hb k n x h => ?_,
    fun b hb n x h => ?_, hs.file_parent⟩
  · by_cases hba : b = a
    · subst hba
      exact hpts _ _ _ _ (hc k n x (by simpa using h))
    · exact hpts _ _ _ _ (hs.cache b hb k n x (by simpa [Function.update_noteq hba] using h))
  · by_cases hba : b = a
    · subst hba
      simpa using hl n x (by simpa using h)
    · simpa [Function.update_noteq hba] using
        hs.linked b hb n x (by simpa [Function.update_noteq hba] using h)

/-- Setting a cache entry keeps the tree when it points right and a directory's name is linked. -/
theorem Tree.setCache (hs : Tree s) (ha : a < s.nextDir) (k : Kind) (n : String) (o : Option Nat)
    (ho : ∀ x, o = some x → Points s a n k x ∧ (k = .dir → n ∈ (s.dirs a).node.names)) :
    Tree { s with dirs := Function.update s.dirs a ((s.dirs a).setCache k n o) } := by
  refine hs.update (by simp) (by simp) (fun k' n' x h => ?_) (fun n' x h => ?_)
  · rcases cache_setCache_eq_some h with ⟨rfl, rfl, ho'⟩ | ⟨-, h⟩
    · exact (ho x ho').1
    · exact hs.cache a ha k' n' x h
  · rcases cache_setCache_eq_some (show (_ : Directory).cache .dir n' = some x from h) with
      ⟨hk, rfl, ho'⟩ | ⟨-, h⟩
    · simpa using (ho x ho').2 hk.symm
    · simpa using hs.linked a ha n' x h

/-- Deleting a name from both caches keeps the tree. -/
theorem Tree.clearCaches (hs : Tree s) (ha : a < s.nextDir) (name : String) :
    Tree { s with
      dirs := Function.update s.dirs a
        (((s.dirs a).setCache .dir name none).setCache .file name none) } := by
  have hold : ∀ {k n x},
      (((s.dirs a).setCache .dir name none).setCache .file name none).cache k n = some x →
        (s.dirs a).cache k n = some x := by
    intro k n x h
    rcases cache_setCache_eq_some h with ⟨-, -, h⟩ | ⟨-, h⟩
    · cases h
    rcases cache_setCache_eq_some h with ⟨-, -, h⟩ | ⟨-, h⟩
    · cases h
    exact h
  refine hs.update (by simp) (by simp) (fun k n x h => hs.cache a ha k n x (hold h))
    (fun n x h => ?_)
  simpa using hs.linked a ha n x (hold (k := .dir) h)

/-- Moving a cached child directory to a new name keeps the tree if every cached name is linked. -/
theorem Tree.renameDir (hs : Tree s) (ha : a < s.nextDir) {x : Nat} {oldname newname : String}
    (hx : (s.dirs a).childDirs oldname = some x) {D : Directory}
    (hp : D.parent = (s.dirs a).parent) (hn : D.name = (s.dirs a).name)
    (hc : ∀ k n y, D.cache k n = some y → (k = .dir ∧ n = newname ∧ y = x) ∨
      (k = .dir → n ≠ oldname) ∧ (s.dirs a).cache k n = some y)
    (hl : ∀ n y, D.childDirs n = some y → n ∈ D.node.names) :
    Tree { s with
      dirs :=
        Function.update (Function.update s.dirs x { s.dirs x with name := newname }) a D } := by
  obtain ⟨hxn, hxp, hxname⟩ := hs.cache a ha .dir oldname x hx
  have hxa : x ≠ a := Nat.ne_of_gt (hs.parent_lt x hxn a hxp)
  have hf (b : Nat) (hb : b ≠ a) :
      Function.update (Function.update s.dirs x { s.dirs x with name := newname }) a D b =
        Function.update s.dirs x { s.dirs x with name := newname } b :=
    Function.update_noteq hb _ _
  have hpar (b : Nat) :
      (Function.update (Function.update s.dirs x { s.dirs x with name := newname }) a D b).parent =
        (s.dirs b).parent := by
    by_cases hb : b = a
    · subst hb; simpa using hp
    · rw [hf b hb]
      by_cases hbx : b = x
      · subst hbx; simp
      · simp [Function.update_noteq hbx]
  have hname (b : Nat) (hbx : b ≠ x) :
      (Function.update (Function.update s.dirs x { s.dirs x with name := newname }) a D b).name =
        (s.dirs b).name := by
    by_cases hb : b = a
    · subst hb; simpa using hn
    · rw [hf b hb, Function.update_noteq hbx]
  have hother (b : Nat) (hb : b ≠ a) :
      (Function.update (Function.update s.dirs x { s.dirs x with name := newname }) a D b).node =
        (s.dirs b).node ∧
      ∀ k, (Function.update (Function.update s.dirs x { s.dirs x with name := newname }) a D
        b).cache k = (s.dirs b).cache k := by
    rw [hf b hb]
    by_cases hbx : b = x
    · subst hbx
      exact ⟨by simp, fun k => by cases k <;> simp [Directory.cache]⟩
    · exact ⟨by simp [Function.update_noteq hbx], fun _ => by simp [Function.update_noteq hbx]⟩
  -- an entry that does not point at `x` points where it did
  have hpts (b : Nat) (n : String) (k : Kind) (y : Nat) (h : Points s b n k y)
      (hy : k = .dir → y ≠ x) : Points { s with
        dirs := Function.update (Function.update s.dirs x { s.dirs x with name := newname }) a D }
        b n k y := by
    cases k
    · exact ⟨h.1, (hpar y).trans h.2.1, (hname y (hy rfl)).trans h.2.2⟩
    · exact h
  refine ⟨fun b hb p h => hs.parent_lt b hb p ((hpar b).symm.trans h), fun b hb k n y h => ?_,
    fun b hb n y h => ?_, hs.file_parent⟩
  · by_cases hba : b = a
    · subst hba
      simp only [Function.update_same] at h
      rcases hc k n y h with ⟨rfl, rfl, rfl⟩ | ⟨hk, hold⟩
      · exact ⟨hxn, (hpar y).trans hxp, by simp [hf y hxa]⟩
      · refine hpts _ _ _ _ (hs.cache b hb k n y hold) fun hkd hyx => ?_
        subst hkd hyx
        exact hk rfl (((hs.cache b hb .dir n y hold).2.2).symm.trans hxname)
    · have h' : (s.dirs b).cache k n = some y := by rw [← (hother b hba).2 k]; exact h
      refine hpts _ _ _ _ (hs.cache b hb k n y h') fun hkd hyx => ?_
      subst hkd hyx
      exact hba (Parent.dir.inj (((hs.cache b hb .dir n y h').2.1).symm.trans hxp))
  · by_cases hba : b = a
    · subst hba
      simp only [Function.update_same] at h ⊢
      exact hl n y h
    · rw [(hother b hba).1]
      refine hs.linked b hb n y ?_
      show (s.dirs b).cache .dir n = some y
      rw [← (hother b hba).2 .dir]
      exact h

/-- Allocating a directory with empty caches whose parent is allocated keeps the tree. -/
theorem Tree.allocDir (hs : Tree s) {d : Directory}
    (hp : ∀ p, d.parent = .dir p → p < s.nextDir) (hc : ∀ k n, d.cache k n = none) :
    Tree { s with dirs := Function.update s.dirs s.nextDir d, nextDir := s.nextDir + 1 } := by
  have hold {x : Nat} (hx : x < s.nextDir) : Function.update s.dirs s.nextDir d x = s.dirs x :=
    Function.update_noteq (Nat.ne_of_lt hx) _ _
  refine ⟨fun b hb p h => ?_, fun b hb k n x h => ?_, fun b hb n x h => ?_,
    fun f hf => Nat.lt_succ_of_lt (hs.file_parent f hf)⟩
  · rcases Nat.lt_succ_iff_lt_or_eq.1 hb with hb | rfl
    · simp only [hold hb] at h
      exact hs.parent_lt b hb p h
    · simp only [Function.update_same] at h
      exact hp p h
  · rcases Nat.lt_succ_iff_lt_or_eq.1 hb with hb | rfl
    · simp only [hold hb] at h
      have := hs.cache b hb k n x h
      cases k
      · exact ⟨Nat.lt_succ_of_lt this.1, by simp only [hold this.1]; exact this.2⟩
      · exact this
    · simp [hc] at h
  · rcases Nat.lt_succ_iff_lt_or_eq.1 hb with hb | rfl
    · simp only [hold hb] at h ⊢
      exact hs.linked b hb n x h
    · simpa [hc .dir n] using (show d.cache .dir n = some x from by simpa using h)

/-- Allocating a file whose parent is allocated keeps the tree. -/
theorem Tree.allocFile (hs : Tree s) {f : File} (hp : f.parent < s.nextDir) :
    Tree { s with files := Function.update s.files s.nextFile f, nextFile := s.nextFile + 1 } := by
  have hold {x : Nat} (hx : x < s.nextFile) : Function.update s.files s.nextFile f x = s.files x :=
    Function.update_noteq (Nat.ne_of_lt hx) _ _
  refine ⟨hs.parent_lt, fun b hb k n x h => ?_, hs.linked, fun x hx => ?_⟩
  · have := hs.cache b hb k n x h
    cases k
    · exact this
    · exact ⟨Nat.lt_succ_of_lt this.1, by simp only [hold this.1]; exact this.2⟩
  · rcases Nat.lt_succ_iff_lt_or_eq.1 hx with hx | rfl
    · simp only [hold hx]
      exact hs.file_parent x hx
    · simpa using hp

/-- Changing a file but not its parent keeps the tree. -/
theorem Tree.modifyFile (hs : Tree s) {x : Nat} {f : File} (hp : f.parent = (s.files x).parent) :
    Tree { s with files := Function.update s.files x f } := by
  have hpar (y : Nat) : (Function.update s.files x f y).parent = (s.files y).parent := by
    by_cases h : y = x
    · subst h; simpa using hp
    · simp [Function.update_noteq h]
  refine ⟨hs.parent_lt, fun b hb k n y h => ?_, hs.linked, fun y hy => (hpar y).trans_lt ?_⟩
  · have := hs.cache b hb k n y h
    cases k
    · exact this
    · exact ⟨this.1, (hpar y).trans this.2⟩
  · exact hs.file_parent y hy

end Heap

/-! ## Running the methods -/

section Run

variable {α β : Type} {P : Heap → Prop}

theorem after_bind (x : M α) (f : α → M β) (s : Heap) :
    after (x >>= f) s = match x s with
      | .ok v s' => after (f v) s'
      | .error _ s' => s' := by
  simp only [after, bind_apply]
  cases x s <;> rfl

/-- A bind keeps `P` when its first step does and the rest does from what the first returns. -/
theorem after_bind_of_ok {x : M α} {f : α → M β} {s : Heap} (hx : P (after x s))
    (hf : ∀ v s', x s = .ok v s' → P s' → P (after (f v) s')) : P (after (x >>= f) s) := by
  rw [after_bind]
  cases h : x s with
  | ok v s' => exact hf v s' h (by rwa [after_of_ok h] at hx)
  | error e s' => rwa [after_of_error h] at hx

end Run

section Methods

variable (hash : Node → Key) {a : Nat}

theorem treeAt_store (nd : Node) : Preserves (TreeAt a) (store hash nd) :=
  .store hash fun _ hs => ⟨⟨hs.1.1, hs.1.2, hs.1.3, hs.1.4⟩, hs.2⟩

theorem treeAt_addLink (name : String) (nd : Node) :
    Preserves (TreeAt a) (addLink hash a name nd) := fun s hs =>
  ⟨hs.1.update rfl rfl (fun k n x h => hs.1.cache a hs.2 k n x (by cases k <;> exact h))
    fun n x h => (Node.mem_names_addNodeLinkClean hash).2 (.inr (hs.1.linked a hs.2 n x h)), hs.2⟩

/-- Removing a link of a name no cached child directory bears keeps the tree. -/
theorem TreeAt.removeLink {s : Heap} {name : String} (hs : TreeAt a s)
    (hn : (s.dirs a).childDirs name = none) : TreeAt a (after (removeLink a name) s) := by
  rw [after_removeLink]
  split
  · rename_i n' hr
    refine ⟨hs.1.update rfl rfl (fun k n x h => hs.1.cache a hs.2 k n x (by cases k <;> exact h))
      (fun n x h => ?_), hs.2⟩
    have hne : n ≠ name := by rintro rfl; simp [hn] at h
    exact (Node.mem_names_removeNodeLink hr hne).2 (hs.1.linked a hs.2 n x h)
  · exact hs

/-- The relink of `closeChild` keeps the tree, whether the removal finds a link or not. -/
theorem treeAt_relink (name : String) (nd : Node) (k : M β) (hk : Preserves (TreeAt a) k) :
    Preserves (TreeAt a)
      (ignoring .notFound (removeLink a name) >>= fun _ =>
        addLink hash a name nd >>= fun _ => k) := by
  intro s hs
  cases hr : (s.dirs a).node.removeNodeLink name with
  | ok n' =>
    have h₁ : ignoring .notFound (removeLink a name) s =
        .ok () { s with dirs := Function.update s.dirs a { s.dirs a with node := n' } } := by
      simp [ignoring, removeLink, hr]
    rw [after_bind, h₁]
    dsimp only
    rw [after_bind, addLink, modifyDir_apply]
    dsimp only
    refine hk _ ⟨?_, hs.2⟩
    simp only [Function.update_same, Function.update_idem]
    refine hs.1.update rfl rfl (fun k n x h => hs.1.cache a hs.2 k n x (by cases k <;> exact h))
      (fun n x h => (Node.mem_names_addNodeLinkClean hash).2 ?_)
    by_cases hne : n = name
    · exact .inl hne
    · exact .inr ((Node.mem_names_removeNodeLink hr hne).2 (hs.1.linked a hs.2 n x h))
  | error e =>
    have h₁ : removeLink a name s = .error e s := by simp [removeLink, hr]
    refine after_bind_of_ok ?_ fun _ s' h _ => ?_
    · simp only [after, ignoring, h₁]
      split_ifs <;> exact hs
    · have hs' : s' = s := by
        simp only [ignoring, h₁] at h
        split_ifs at h
        cases h
        rfl
      subst hs'
      exact after_bind_of_ok (treeAt_addLink hash name nd _ hs) fun _ _ _ h => hk _ h

/-- Making an overlay and caching it keeps the tree when a directory's name is linked. -/
theorem TreeAt.make_cache {s : Heap} (hs : TreeAt a s) (k : Kind) (name : String) (nd : Node)
    (hn : k = .dir → name ∈ (s.dirs a).node.names) (f : Nat → M β)
    (hf : ∀ x, Preserves (TreeAt a) (f x)) :
    TreeAt a (after (k.make name nd a >>= fun x =>
      modifyDir a (·.setCache k name (some x)) >>= fun _ => f x) s) := by
  have hne : a ≠ s.nextDir := Nat.ne_of_lt hs.2
  cases k
  · -- a new directory, cached under the name
    rw [after_bind]
    simp only [Kind.make, newDirectory, allocDir_apply, after_bind, modifyDir_apply]
    refine hf _ _ ⟨?_, Nat.lt_succ_of_lt hs.2⟩
    have h₁ := hs.1.allocDir (d := ⟨.dir a, fun _ => none, fun _ => none, nd, name⟩)
      (fun p hp => by cases hp; exact hs.2) (fun k _ => by cases k <;> rfl)
    refine h₁.setCache (Nat.lt_succ_of_lt hs.2) .dir name _ fun x hx => ?_
    cases hx
    exact ⟨⟨Nat.lt_succ_self _, by simp, by simp⟩, fun _ => by
      simpa [Function.update_noteq hne] using hn rfl⟩
  · -- a new file, cached under the name
    rw [after_bind]
    simp only [Kind.make, newFile, allocFile_apply, after_bind, modifyDir_apply]
    refine hf _ _ ⟨?_, hs.2⟩
    refine (hs.1.allocFile (f := ⟨a, nd, name⟩) hs.2).setCache hs.2 .file name _ fun x hx => ?_
    cases hx
    exact ⟨⟨Nat.lt_succ_self _, by simp⟩, fun h => by cases h⟩

theorem TreeAt.newChild {s : Heap} {k : Kind} {other : Error} {name : String} {nd : Node}
    {i : Data} (hs : TreeAt a s) (hn : name ∈ (s.dirs a).node.names) :
    TreeAt a (after (Directory.newChild k other a name nd i) s) := by
  unfold Directory.newChild
  split_ifs
  · exact hs.make_cache k name nd (fun _ => hn) _ fun x => .pure x
  all_goals exact hs

theorem treeAt_lookupChild (k : Kind) (other : Error) (name : String) :
    Preserves (TreeAt a) (Directory.lookupChild hash k other a name) := by
  intro s hs
  cases hc : (s.dirs a).cache k name with
  | some x => rwa [after_of_ok (Directory.lookupChild_cached hc)]
  | none =>
    cases hl : (s.dirs a).node.links.find? (·.name = name) with
    | none => rwa [after_of_error (Directory.lookupChild_noLink hc hl)]
    | some lnk =>
      cases hg : s.dserv.get hash lnk.hash with
      | error => rwa [after_of_error (Directory.lookupChild_getError hc hl hg)]
      | ok nd =>
        cases hi : nd.data.unmarshal with
        | error => rwa [after_of_error (Directory.lookupChild_decodeError hc hl hg hi)]
        | ok i =>
          have hname := List.find?_some hl
          simp only [decide_eq_true_eq] at hname
          have hn : name ∈ (s.dirs a).node.names :=
            List.mem_map.2 ⟨lnk, List.mem_of_find?_eq_some hl, hname⟩
          simp only [after, Directory.lookupChild_link hc hl hg hi]
          exact hs.newChild hn

/-- A lookup that returns leaves what it returns cached under the name. -/
theorem lookupChild_cache {s s' : Heap} {k : Kind} {other : Error} {name : String} {x : Nat}
    (h : Directory.lookupChild hash k other a name s = .ok x s') :
    (s'.dirs a).cache k name = some x := by
  cases hc : (s.dirs a).cache k name with
  | some y => rw [Directory.lookupChild_cached hc] at h; cases h; exact hc
  | none =>
    cases hl : (s.dirs a).node.links.find? (·.name = name) with
    | none => rw [Directory.lookupChild_noLink hc hl] at h; cases h
    | some lnk =>
      cases hg : s.dserv.get hash lnk.hash with
      | error => rw [Directory.lookupChild_getError hc hl hg] at h; cases h
      | ok nd =>
        cases hi : nd.data.unmarshal with
        | error => rw [Directory.lookupChild_decodeError hc hl hg hi] at h; cases h
        | ok i =>
          rw [Directory.lookupChild_link hc hl hg hi] at h
          unfold Directory.newChild at h
          split_ifs at h
          · cases k <;> simp [Kind.make, newDirectory, newFile] at h <;>
              obtain ⟨rfl, rfl⟩ := h <;> simp [Directory.cache_setCache]
          all_goals cases h

theorem treeAt_child (name : String) : Preserves (TreeAt a) (Directory.child hash a name) := by
  unfold Directory.child
  refine .bind (treeAt_lookupChild hash _ _ _).attempt fun o => ?_
  split
  · exact .pure _
  · refine .bind (treeAt_lookupChild hash _ _ _).attempt fun o => ?_
    split
    · exact .pure _
    · exact .throw _

/-- The walk up keeps the tree, by strong induction on the address as `Stable.close`. -/
theorem treeAt_close (a : Nat) :
    (∀ name, Preserves (TreeAt a) (Directory.closeChild hash a name)) ∧
      Preserves (TreeAt a) (Directory.closeParent hash a) := by
  induction a using Nat.strong_induction_on with
  | _ a ih =>
    have parent : Preserves (TreeAt a) (Directory.closeParent hash a) := by
      rw [Directory.closeParent]
      refine .bind (.getDir a) fun d => ?_
      split
      · exact .pure _
      · split
        · rename_i p _ hp
          exact fun s hs => ⟨((ih p hp).1 _ s ⟨hs.1, hp.trans hs.2⟩).1,
            Nat.lt_of_lt_of_le hs.2 ((stable_nextDir s.nextDir (p + 1)).closeChild
              (Nat.lt_succ_self p) _ s le_rfl)⟩
        · exact .throw _
    refine ⟨fun name => ?_, parent⟩
    rw [Directory.closeChild]
    exact .bind (treeAt_child hash name) fun c => .bind (.getNode c) fun nd =>
      .bind (treeAt_store hash nd) fun _ => treeAt_relink hash name nd _ parent

theorem treeAt_mkdir (name : String) : Preserves (TreeAt a) (Directory.mkdir hash a name) := by
  unfold Directory.mkdir
  refine .bind (treeAt_lookupChild hash _ _ _).attempt fun o => ?_
  dsimp only
  split
  · exact .throw_bind _ _
  refine .bind (.pure _) fun _ => .bind (treeAt_lookupChild hash _ _ _).attempt fun o => ?_
  split
  · exact .throw_bind _ _
  exact .bind (.pure _) fun _ => .bind (treeAt_addLink hash _ _) fun _ =>
    .bind (treeAt_close hash a).2 fun _ => treeAt_lookupChild hash _ _ _

theorem treeAt_unlink (name : String) : Preserves (TreeAt a) (Directory.unlink hash a name) := by
  intro s hs
  rw [Directory.unlink, after_bind, modifyDir_apply]
  dsimp only
  refine after_bind_of_ok
    (TreeAt.removeLink ⟨hs.1.clearCaches hs.2 name, hs.2⟩ (by simp [Directory.setCache]))
    fun _ _ _ h => (treeAt_close hash a).2 _ h

theorem treeAt_addChild (name : String) (nd : Node) :
    Preserves (TreeAt a) (Directory.addChild hash a name nd) := by
  unfold Directory.addChild
  refine .bind (.liftExcept _) fun pbn => .bind (treeAt_child hash name).attempt fun o => ?_
  dsimp only
  split
  · exact .throw_bind _ _
  refine .bind (.pure _) fun _ => ?_
  intro s hs
  refine after_bind_of_ok (treeAt_addLink hash name nd s hs) fun _ s' h hs' => ?_
  have hn : name ∈ (s'.dirs a).node.names := by
    simp only [addLink, modifyDir_apply, EStateM.Result.ok.injEq, true_and] at h
    subst h
    simp [Node.mem_names_addNodeLinkClean]
  split
  · exact hs'.make_cache .dir name nd (fun _ => hn) _ fun _ => (treeAt_close hash a).2
  iterate 3
    exact hs'.make_cache .file name nd (fun h => by cases h) _ fun _ => (treeAt_close hash a).2
  · exact Preserves.throw_bind _ _ _ hs'

/-- The state the directory branch of `RenameEntry` walks up from is a tree. -/
theorem TreeAt.renamedDir {s : Heap} {oldname newname : String} {x : Nat} {n' : Node}
    (hs : TreeAt a s) (hx : (s.dirs a).childDirs oldname = some x)
    (hr : (s.dirs a).node.removeNodeLink oldname = .ok n') :
    TreeAt a { s with
      dirs := Function.update (Function.update s.dirs x { s.dirs x with name := newname }) a
        (({ s.dirs a with node := n'.addNodeLinkClean hash newname (s.dirs x).node }.setCache
          .dir oldname none).setCache .dir newname (some x)) } := by
  refine ⟨hs.1.renameDir hs.2 hx (by simp) (by simp) (fun k n y h => ?_) (fun n y h => ?_), hs.2⟩
  · rcases cache_setCache_eq_some h with ⟨hk, hn, hy⟩ | ⟨-, h⟩
    · exact .inl ⟨hk, hn, (Option.some.inj hy).symm⟩
    rcases cache_setCache_eq_some h with ⟨-, -, hy⟩ | ⟨hne, h⟩
    · cases hy
    exact .inr ⟨fun hk hn => hne ⟨hk, hn⟩, by cases k <;> exact h⟩
  · rcases cache_setCache_eq_some (show (_ : Directory).cache .dir n = some y from h) with
      ⟨-, rfl, -⟩ | ⟨-, h⟩
    · simp [Node.mem_names_addNodeLinkClean]
    rcases cache_setCache_eq_some h with ⟨-, -, hy⟩ | ⟨hne, h⟩
    · cases hy
    have hne : n ≠ oldname := fun hn => hne ⟨rfl, hn⟩
    exact (Node.mem_names_addNodeLinkClean hash).2
      (.inr ((Node.mem_names_removeNodeLink hr hne).2 (hs.1.linked a hs.2 n y h)))

/-- The state the file branch of `RenameEntry` walks up from is a tree. -/
theorem TreeAt.renamedFile {s : Heap} {oldname newname : String} {x : Nat} {n' : Node}
    (hs : TreeAt a s) (hx : (s.dirs a).files oldname = some x)
    (hr : (s.dirs a).node.removeNodeLink oldname = .ok n') :
    TreeAt a { s with
      dirs := Function.update s.dirs a
        (({ s.dirs a with node := n'.addNodeLinkClean hash newname (s.files x).node }.setCache
          .dir oldname none).setCache .file newname (some x))
      files := Function.update s.files x { s.files x with name := newname } } := by
  have hf := hs.1.cache a hs.2 .file oldname x hx
  have hs₁ : Tree { s with files := Function.update s.files x { s.files x with name := newname } } :=
    hs.1.modifyFile rfl
  refine ⟨hs₁.update (by simp) (by simp) (fun k n y h => ?_) (fun n y h => ?_), hs.2⟩
  · rcases cache_setCache_eq_some h with ⟨rfl, rfl, hy⟩ | ⟨-, h⟩
    · cases hy
      exact ⟨hf.1, by simpa using hf.2⟩
    rcases cache_setCache_eq_some h with ⟨-, -, hy⟩ | ⟨-, h⟩
    · cases hy
    exact hs₁.cache a hs.2 k n y (by cases k <;> exact h)
  · rcases cache_setCache_eq_some (show (_ : Directory).cache .dir n = some y from h) with
      ⟨hk, -, -⟩ | ⟨-, h⟩
    · cases hk
    rcases cache_setCache_eq_some h with ⟨-, -, hy⟩ | ⟨hne, h⟩
    · cases hy
    have hne : n ≠ oldname := fun hn => hne ⟨rfl, hn⟩
    exact (Node.mem_names_addNodeLinkClean hash).2
      (.inr ((Node.mem_names_removeNodeLink hr hne).2 (hs.1.linked a hs.2 n y h)))

/-- A branch of `RenameEntry` keeps the tree; a directory's old link is always found. -/
theorem TreeAt.renameTo {s : Heap} {ins : Kind} {oldname newname : String} {x : Nat}
    (hs : TreeAt a s) (hx : (s.dirs a).cache ins oldname = some x) :
    TreeAt a (after (Directory.renameTo hash .dir ins a oldname newname x) s) := by
  cases ins
  · -- a directory
    have hx' : (s.dirs a).childDirs oldname = some x := hx
    obtain ⟨hxn, hxp, -⟩ := hs.1.cache a hs.2 .dir oldname x hx
    have hxa : x ≠ a := Nat.ne_of_gt (hs.1.parent_lt x hxn a hxp)
    obtain ⟨n', hr⟩ := Node.removeNodeLink_of_mem (hs.1.linked a hs.2 oldname x hx')
    simp only [Directory.renameTo, after_bind, modifyDir_apply, Ipnsfs.removeLink, hr, addLink,
      Function.update_noteq hxa, Function.update_noteq (Ne.symm hxa), Directory.getNode_apply,
      Kind.fsNode, Heap.nodeOf, Function.update_same, Function.update_idem]
    exact (treeAt_close hash a).2 _ (hs.renamedDir hash hx' hr)
  · -- a file
    cases hr : (s.dirs a).node.removeNodeLink oldname with
    | error e =>
      simp only [Directory.renameTo, after_bind, modifyFile_apply, Ipnsfs.removeLink, hr]
      exact ⟨hs.1.modifyFile rfl, hs.2⟩
    | ok n' =>
      simp only [Directory.renameTo, after_bind, modifyFile_apply, modifyDir_apply,
        Ipnsfs.removeLink, hr, addLink, Directory.getNode_apply, Kind.fsNode, Heap.nodeOf,
        Function.update_same, Function.update_idem]
      exact (treeAt_close hash a).2 _ (hs.renamedFile hash hx hr)

theorem treeAt_renameEntry (oldname newname : String) :
    Preserves (TreeAt a) (Directory.renameEntry hash a oldname newname) := by
  intro s hs
  unfold Directory.renameEntry
  refine after_bind_of_ok ((treeAt_lookupChild hash _ _ _).attempt s hs) fun o s₁ h hs₁ => ?_
  rcases attempt_eq_ok h with ⟨dir, rfl, hd⟩ | ⟨rfl, -⟩
  · exact hs₁.renameTo hash (lookupChild_cache hash hd)
  · refine after_bind_of_ok ((treeAt_lookupChild hash _ _ _).attempt s₁ hs₁)
      fun o s₂ h hs₂ => ?_
    rcases attempt_eq_ok h with ⟨fi, rfl, hf⟩ | ⟨rfl, -⟩
    · exact hs₂.renameTo hash (lookupChild_cache hash hf)
    · exact hs₂

/-- `Open` keeps the tree, down through the child directories it looks up. -/
theorem tree_open (a : Nat) (tpath : List String) (mode : Nat) :
    ∀ s, TreeAt a s → Tree (after (Directory.open hash a tpath mode) s) := by
  induction a, tpath, mode using Directory.open.induct hash with
  | case1 a mode => exact fun _ hs => hs.1
  | case2 a p mode =>
    intro s hs
    rw [Directory.open]
    refine ((Preserves.bind (treeAt_lookupChild hash _ _ _).attempt fun o => ?_) s hs).1
    split
    · exact .pure _
    · split
      · exact fun s hs => hs.make_cache .file p emptyFileNode (fun h => by cases h) _ .pure
      · exact .throw _
  | case3 a p rest mode hne ih =>
    intro s hs
    rw [Directory.open.eq_3 hash a mode p rest hne]
    refine after_bind_of_ok ((treeAt_lookupChild hash _ _ _) s hs).1 fun dir s' h hs' => ?_
    have ha : a < s'.nextDir := (after_of_ok h ▸ treeAt_lookupChild hash _ _ _ s hs).2
    exact ih dir s' ⟨hs', (hs'.cache a ha .dir p dir (lookupChild_cache hash h)).1⟩

end Methods

/-! ## Runs -/

section Runs

variable (hash : Node → Key)

/-- The directory a call is made on. -/
def Call.addr : Call → Nat
  | .open a _ _ => a
  | .mkdir a _ => a
  | .unlink a _ => a
  | .renameEntry a _ _ => a
  | .addChild a _ _ => a
  | .child a _ => a
  | .closeChild a _ => a

/-- Every call is made on a directory allocated when it is made. -/
def OnAllocated : Heap → List Call → Prop
  | _, [] => True
  | s, c :: calls => c.addr < s.nextDir ∧ OnAllocated (after (c.run hash) s) calls

variable {hash}

theorem tree_call (c : Call) {s : Heap} (hs : Tree s) (ha : c.addr < s.nextDir) :
    Tree (after (c.run hash) s) := by
  cases c with
  | «open» a tpath mode =>
    exact after_bind_of_ok (tree_open hash a tpath mode s ⟨hs, ha⟩) fun _ _ _ h => h
  | mkdir a name =>
    exact ((Preserves.bind (treeAt_mkdir hash name) fun _ => .pure ()) s ⟨hs, ha⟩).1
  | unlink a name => exact (treeAt_unlink hash name s ⟨hs, ha⟩).1
  | renameEntry a o n => exact (treeAt_renameEntry hash o n s ⟨hs, ha⟩).1
  | addChild a name nd => exact (treeAt_addChild hash name nd s ⟨hs, ha⟩).1
  | child a name =>
    exact ((Preserves.bind (treeAt_child hash name) fun _ => .pure ()) s ⟨hs, ha⟩).1
  | closeChild a name => exact ((treeAt_close hash a).1 name s ⟨hs, ha⟩).1

theorem tree_runCalls {s : Heap} (hs : Tree s) (calls : List Call)
    (hc : OnAllocated hash s calls) : Tree (runCalls hash s calls) := by
  induction calls generalizing s with
  | nil => exact hs
  | cons c calls ih => exact ih (tree_call c hs hc.1) hc.2

/-- In a tree the walk up goes to a lower address, so the guard of `closeParent` never fires. -/
theorem closeParent_of_tree {s : Heap} (hs : Tree s) {a : Nat} (ha : a < s.nextDir) {p : Nat}
    (hp : (s.dirs a).parent = .dir p) :
    p < a ∧ Directory.closeParent hash a s = Directory.closeChild hash p (s.dirs a).name s :=
  ⟨hs.parent_lt a ha p hp, closeParent_dir hp (hs.parent_lt a ha p hp)⟩

/-- Every run of calls on allocated directories keeps the tree, and the walk up is Go's. -/
theorem tree_of_runCalls {s : Heap} (hs : Tree s) (calls : List Call)
    (hc : OnAllocated hash s calls) :
    let s' := runCalls hash s calls
    Tree s' ∧ ∀ a < s'.nextDir, ∀ p, (s'.dirs a).parent = .dir p →
      p < a ∧ Directory.closeParent hash a s' = Directory.closeChild hash p (s'.dirs a).name s' :=
  have ht := tree_runCalls hs calls hc
  ⟨ht, fun _ ha _ hp => closeParent_of_tree ht ha hp⟩

/-- A root linking "x" to a folder: `Child("x")`, then `Open(["y"], 0)` in it. -/
theorem tree_of_runCalls_linked :
    let s := Heap.linked sizeHash "x" emptyDirNode
    let calls : List Call := [.child 0 "x", .open 1 ["y"] 0]
    let s' := runCalls sizeHash s calls
    Tree s ∧ OnAllocated sizeHash s calls ∧ Tree s' ∧ ∀ a < s'.nextDir, ∀ p,
      (s'.dirs a).parent = .dir p → p < a ∧
        Directory.closeParent sizeHash a s' = Directory.closeChild sizeHash p (s'.dirs a).name s' :=
  have hc : OnAllocated sizeHash (Heap.linked sizeHash "x" emptyDirNode)
      [.child 0 "x", .open 1 ["y"] 0] := by
    simp only [OnAllocated]
    decide
  ⟨tree_root _ _ _, hc, tree_of_runCalls (tree_root _ _ _) _ hc⟩

end Runs

end Ipnsfs

end GoIpfs
