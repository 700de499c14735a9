import GoIpfs.Ipnsfs.Heap
import Mathlib.Data.Nat.Bitwise

/-!
# Directory overlays

`ipnsfs/dir.go`. A `Directory` answers lookups from its caches, else from the first link of the
name, fetched, decoded and cached as an overlay (`lookupChild`). A mutation changes the node in
place and closes the directory into its parent, which stores and relinks it and closes itself in
turn (`closeChild`, `closeParent`). File overlays are modelled from the spec (`flush`).
-/

namespace GoIpfs

namespace Ipnsfs

variable (hash : Node → Key)

/-- `NewDirectory(name, node, parent, dserv)`: a directory with empty caches. -/
def newDirectory (name : String) (node : Node) (parent : Parent) : M Nat :=
  allocDir ⟨parent, fun _ => none, fun _ => none, node, name⟩

/-- Modelled from the spec: `NewFile(name, node, parent, dserv)`, a File Overlay of the node. -/
def newFile (name : String) (node : Node) (parent : Nat) : M Nat :=
  allocFile ⟨parent, node, name⟩

/-- The overlay a lookup makes for a node it finds: `NewDirectory` or `NewFile`. -/
def Kind.make : Kind → String → Node → Nat → M Nat
  | .dir, name, nd, a => newDirectory name nd (.dir a)
  | .file, name, nd, a => newFile name nd a

/-- `GetNode()` of an overlay: a directory's node, and, modelled from the spec, a file's. -/
def getNode : FSNode → M Node
  | .dir x => fun s => .ok (s.dirs x).node s
  | .file x => fun s => .ok (s.files x).node s

/-- Modelled from the spec: the node of an empty file, `ft.FilePBData(nil, 0)` without links. -/
def emptyFileNode : Node := ⟨filePBData [] 0, []⟩

/-- The node `Mkdir` makes, `&dag.Node{Data: ft.FolderPBData()}`. -/
def emptyDirNode : Node := ⟨folderPBData, []⟩

/-- `os.O_CREATE`. -/
def oCreate : Nat := 64

namespace Directory

/-- The type switch of `childFile` and `childDir`: make and cache an overlay of the kind asked for,
fail with `other` for the other kind, and panic on any other type. -/
def newChild (k : Kind) (other : Error) (a : Nat) (name : String) (nd : Node) (i : Data) :
    M Nat :=
  if i.type = k.dataType then do
    let x ← k.make name nd a
    modifyDir a (·.setCache k name (some x))
    pure x
  else if i.type = .directory ∨ i.type = .file then throw other
  else if i.type = .metadata then throw (.panicked "NOT YET IMPLEMENTED")
  else throw (.panicked "NO!")

/-- The lookup `childFile` and `childDir` share: the cache of `k`, else the first link, fetched. -/
def lookupChild (k : Kind) (other : Error) (a : Nat) (name : String) : M Nat := do
  let d ← getDir a
  match d.cache k name with
  | some x => pure x
  | none =>
    match d.node.links.find? (·.name = name) with
    | none => throw .noSuch
    | some lnk =>
      let nd ← fetch hash lnk.hash
      let i ← liftExcept nd.data.unmarshal
      newChild k other a name nd i

/-- `d.childFile(name)`. -/
def childFile (a : Nat) (name : String) : M Nat :=
  lookupChild hash .file .isDirectory a name

/-- `d.childDir(name)`. -/
def childDir (a : Nat) (name : String) : M Nat :=
  lookupChild hash .dir (.new (name ++ " is not a directory")) a name

/-- `d.Child(name)`: a directory of that name, else a file, else `ErrNoSuch`. -/
def child (a : Nat) (name : String) : M FSNode := do
  match ← attempt (childDir hash a name) with
  | some x => pure (.dir x)
  | none =>
    match ← attempt (childFile hash a name) with
    | some x => pure (.file x)
    | none => throw .noSuch

/-- The unixfs type of the node linked under `name`, when the service has it and it decodes. -/
def linkType (s : Heap) (a : Nat) (name : String) : Option DataType := do
  let lnk ← (s.dirs a).node.links.find? (·.name = name)
  let nd ← (s.dserv.get hash lnk.hash).toOption
  let i ← nd.data.unmarshal.toOption
  pure i.type

section Lookup

variable {hash} {s s' : Heap} {k : Kind} {other : Error} {a x : Nat} {name : String}

theorem lookupChild_cached (h : (s.dirs a).cache k name = some x) :
    lookupChild hash k other a name s = .ok x s := by
  simp [lookupChild, h]

theorem lookupChild_noLink (hc : (s.dirs a).cache k name = none)
    (hl : (s.dirs a).node.links.find? (·.name = name) = none) :
    lookupChild hash k other a name s = .error .noSuch s := by
  simp [lookupChild, hc, hl]

theorem lookupChild_getError {lnk : Link} {e : Error} (hc : (s.dirs a).cache k name = none)
    (hl : (s.dirs a).node.links.find? (·.name = name) = some lnk)
    (hg : s.dserv.get hash lnk.hash = .error e) :
    lookupChild hash k other a name s = .error e s := by
  simp [lookupChild, hc, hl, hg]

theorem lookupChild_decodeError {lnk : Link} {nd : Node} {e : Error}
    (hc : (s.dirs a).cache k name = none)
    (hl : (s.dirs a).node.links.find? (·.name = name) = some lnk)
    (hg : s.dserv.get hash lnk.hash = .ok nd) (hi : nd.data.unmarshal = .error e) :
    lookupChild hash k other a name s = .error e s := by
  simp [lookupChild, hc, hl, hg, hi]

theorem lookupChild_link {lnk : Link} {nd : Node} {i : Data}
    (hc : (s.dirs a).cache k name = none)
    (hl : (s.dirs a).node.links.find? (·.name = name) = some lnk)
    (hg : s.dserv.get hash lnk.hash = .ok nd) (hi : nd.data.unmarshal = .ok i) :
    lookupChild hash k other a name s = newChild k other a name nd i s := by
  simp [lookupChild, hc, hl, hg, hi]

variable {nd : Node} {i : Data}

theorem newChild_raw (h : i.type = .raw) :
    newChild k other a name nd i s = .error (.panicked "NO!") s := by
  cases k <;> simp [newChild, h, Kind.dataType]

theorem newChild_other (h : i.type ≠ k.dataType) (h' : i.type = .directory ∨ i.type = .file) :
    newChild k other a name nd i s = .error other s := by
  simp [newChild, h, h']

/-- A lookup that meets a node of its own kind makes an overlay of it and caches it. -/
theorem newChild_make (h : i.type = k.dataType) (hm : k.make name nd a s = .ok x s') :
    newChild k other a name nd i s =
      .ok x { s' with dirs := Function.update s'.dirs a ((s'.dirs a).setCache k name (some x)) } := by
  simp [newChild, h, hm, modifyDir]

theorem newChild_error {e : Error} (h : newChild k other a name nd i s = .error e s') :
    s' = s := by
  unfold newChild at h
  split_ifs at h
  · cases k <;> simp [Kind.make, newDirectory, newFile] at h
  all_goals exact ((throw_apply _ _).symm.trans h |> EStateM.Result.error.inj).2.symm

theorem type_of_newChild (h : newChild k other a name nd i s = .ok x s') :
    i.type = k.dataType := by
  unfold newChild at h
  split_ifs at h with ht
  · exact ht
  all_goals cases h

/-- A lookup that fails has changed nothing. -/
theorem lookupChild_error {e : Error} (h : lookupChild hash k other a name s = .error e s') :
    s' = s := by
  cases hc : (s.dirs a).cache k name with
  | some => rw [lookupChild_cached hc] at h; cases h
  | none =>
    cases hl : (s.dirs a).node.links.find? (·.name = name) with
    | none => rw [lookupChild_noLink hc hl] at h; cases h; rfl
    | some lnk =>
      cases hg : s.dserv.get hash lnk.hash with
      | error => rw [lookupChild_getError hc hl hg] at h; cases h; rfl
      | ok nd =>
        cases hi : nd.data.unmarshal with
        | error => rw [lookupChild_decodeError hc hl hg hi] at h; cases h; rfl
        | ok i => rw [lookupChild_link hc hl hg hi] at h; exact newChild_error h

/-- A lookup that misses the cache decides on the type of the node the link leads to. -/
theorem lookupChild_of_linkType {t : DataType} (hc : (s.dirs a).cache k name = none)
    (ht : linkType hash s a name = some t) :
    ∃ nd i, i.type = t ∧ lookupChild hash k other a name s = newChild k other a name nd i s := by
  simp only [linkType, Option.bind_eq_bind, Option.bind_eq_some, Option.pure_def,
    Option.some.injEq] at ht
  obtain ⟨lnk, hl, nd, hg, i, hi, rfl⟩ := ht
  cases hg' : s.dserv.get hash lnk.hash <;> simp [hg', Except.toOption] at hg
  cases hi' : nd.data.unmarshal <;> simp [hi', Except.toOption] at hi
  subst hg hi
  exact ⟨_, _, rfl, lookupChild_link hc hl hg' hi'⟩

/-- A lookup that misses the cache and meets a Raw node panics, whichever kind it asked for. -/
theorem lookupChild_raw (hc : (s.dirs a).cache k name = none)
    (ht : linkType hash s a name = some .raw) :
    lookupChild hash k other a name s = .error (.panicked "NO!") s := by
  obtain ⟨nd, i, hr, h⟩ := lookupChild_of_linkType hc ht
  exact h.trans (newChild_raw hr)

/-- A lookup that misses the cache and meets a node of the other kind fails with `other`. -/
theorem lookupChild_otherKind {t : DataType} (hc : (s.dirs a).cache k name = none)
    (ht : linkType hash s a name = some t) (hk : t ≠ k.dataType)
    (hk' : t = .directory ∨ t = .file) :
    lookupChild hash k other a name s = .error other s := by
  obtain ⟨nd, i, rfl, h⟩ := lookupChild_of_linkType hc ht
  exact h.trans (newChild_other hk hk')

/-- A lookup that misses the cache and returns found a link to a node of the kind asked for. -/
theorem linkType_of_lookupChild (hc : (s.dirs a).cache k name = none)
    (h : lookupChild hash k other a name s = .ok x s') :
    linkType hash s a name = some k.dataType := by
  cases hl : (s.dirs a).node.links.find? (·.name = name) with
  | none => rw [lookupChild_noLink hc hl] at h; cases h
  | some lnk =>
    cases hg : s.dserv.get hash lnk.hash with
    | error => rw [lookupChild_getError hc hl hg] at h; cases h
    | ok nd =>
      cases hi : nd.data.unmarshal with
      | error => rw [lookupChild_decodeError hc hl hg hi] at h; cases h
      | ok i =>
        rw [lookupChild_link hc hl hg hi] at h
        simp [linkType, hl, hg, hi, Except.toOption, type_of_newChild h]

end Lookup

section Child

variable {hash} {s s' : Heap} {a x : Nat} {name : String}

@[simp] theorem getNode_apply (c : FSNode) (s : Heap) : getNode c s = .ok (s.nodeOf c) s := by
  cases c <;> rfl

theorem child_of_childDir (h : childDir hash a name s = .ok x s') :
    child hash a name s = .ok (.dir x) s' := by
  simp [child, attempt_of_ok h]

theorem child_cachedDir (h : (s.dirs a).childDirs name = some x) :
    child hash a name s = .ok (.dir x) s :=
  child_of_childDir (lookupChild_cached h)

theorem child_of_childFile {s₁ : Heap} {e : Error} (hd : childDir hash a name s = .error e s₁)
    (hp : e.isPanic = false) (hf : childFile hash a name s₁ = .ok x s') :
    child hash a name s = .ok (.file x) s' := by
  simp [child, attempt_of_error hd hp, attempt_of_ok hf]

/-- With no directory under the name and none linked, `Child` finds the cached file or panics. -/
theorem child_cachedFile {c : FSNode} (hd : (s.dirs a).childDirs name = none)
    (ht : linkType hash s a name ≠ some .directory) (hf : (s.dirs a).files name = some x)
    (h : child hash a name s = .ok c s') : c = .file x ∧ s' = s := by
  cases hl : childDir hash a name s with
  | ok y s₁ => exact absurd (linkType_of_lookupChild (k := .dir) hd hl) ht
  | error e s₁ =>
    have hs₁ : s₁ = s := lookupChild_error hl
    subst s₁
    cases hp : e.isPanic
    · rw [child_of_childFile hl hp (lookupChild_cached hf)] at h
      cases h
      exact ⟨rfl, rfl⟩
    · simp only [child, bind_apply, attempt_of_panic hl hp] at h
      cases h

end Child

/-- `d.List()`: the names of the links, in order. -/
def list (d : Directory) : List String := d.node.names

mutual

/-- `d.closeChild(name)`. -/
def closeChild (a : Nat) (name : String) : M Unit := do
  let c ← child hash a name
  let nd ← getNode c
  store hash nd
  ignoring .notFound (removeLink a name)
  addLink hash a name nd
  closeParent a
termination_by (a, 1)
decreasing_by exact .right _ Nat.zero_lt_one

/-- `d.parent.closeChild(d.name)`; a parent is at a lower address, so the guard never fires. -/
def closeParent (a : Nat) : M Unit := do
  let d ← getDir a
  match d.parent with
  | .sink => pure ()
  | .dir p => if _h : p < a then closeChild p d.name else throw (.new "parent cycle")
termination_by (a, 0)
decreasing_by exact .left _ _ _h

end

/-- `d.Open(tpath, mode)`, whose test `mode|os.O_CREATE != 0` holds for every mode. -/
def «open» (a : Nat) : List String → Nat → M Nat
  | [], _ => throw .isDirectory
  | [p], mode => do
    match ← attempt (childFile hash a p) with
    | some fi => pure fi
    | none =>
      if mode ||| oCreate ≠ 0 then
        let nfi ← newFile p emptyFileNode a
        modifyDir a (·.setCache .file p (some nfi))
        pure nfi
      else throw .noSuch
  | p :: rest, mode => do
    let dir ← childDir hash a p
    «open» dir rest mode

section Open

variable {hash} {s s' : Heap} {a x : Nat} {p : String}

/-- The create test of `Open` holds for every mode. -/
theorem lor_oCreate_ne_zero (mode : Nat) : mode ||| oCreate ≠ 0 := fun h => by
  have h6 : (mode ||| oCreate).testBit 6 = true := by
    rw [Nat.testBit_or]
    exact Bool.or_eq_true_iff.2 (.inr (by decide))
  rw [h] at h6
  exact absurd h6 (by decide)

theorem open_file (h : childFile hash a p s = .ok x s') (mode : Nat) :
    «open» hash a [p] mode s = .ok x s' := by
  simp [«open», attempt_of_ok h]

/-- `Open` of a name `childFile` does not resolve makes a new empty file, whatever the mode. -/
theorem open_create (h : attempt (childFile hash a p) s = .ok none s') (mode : Nat) :
    «open» hash a [p] mode s = .ok s'.nextFile
      { s' with
        dirs := Function.update s'.dirs a ((s'.dirs a).setCache .file p (some s'.nextFile))
        files := Function.update s'.files s'.nextFile ⟨a, emptyFileNode, p⟩
        nextFile := s'.nextFile + 1 } := by
  simp [«open», h, lor_oCreate_ne_zero, newFile]

end Open

/-- `d.Mkdir(name)`. -/
def mkdir (a : Nat) (name : String) : M Nat := do
  if (← attempt (childDir hash a name)).isSome then
    throw (.new "directory by that name already exists")
  if (← attempt (childFile hash a name)).isSome then
    throw (.new "file by that name already exists")
  addLink hash a name emptyDirNode
  closeParent hash a
  childDir hash a name

/-- `d.Unlink(name)`. -/
def unlink (a : Nat) (name : String) : M Unit := do
  modifyDir a fun d => (d.setCache .dir name none).setCache .file name none
  removeLink a name
  closeParent hash a

theorem unlink_of_removeNodeLink {s : Heap} {a : Nat} {name : String} {n : Node}
    (hr : (s.dirs a).node.removeNodeLink name = .ok n) :
    unlink hash a name s = closeParent hash a { s with
      dirs := Function.update s.dirs a
        { ((s.dirs a).setCache .dir name none).setCache .file name none with node := n } } := by
  simp [unlink, removeLink, hr]

/-- One branch of `d.RenameEntry`; the file branch also deletes from `childDirs`, not `files`. -/
def renameTo (del ins : Kind) (a : Nat) (oldname newname : String) (x : Nat) : M Unit := do
  match ins with
  | .dir => modifyDir x fun d => { d with name := newname }
  | .file => modifyFile x fun f => { f with name := newname }
  removeLink a oldname
  let nd ← getNode (ins.fsNode x)
  addLink hash a newname nd
  modifyDir a fun d => (d.setCache del oldname none).setCache ins newname (some x)
  closeParent hash a

/-- `d.RenameEntry(oldname, newname)`. -/
def renameEntry (a : Nat) (oldname newname : String) : M Unit := do
  match ← attempt (childDir hash a oldname) with
  | some dir => renameTo hash .dir .dir a oldname newname dir
  | none =>
    match ← attempt (childFile hash a oldname) with
    | some fi => renameTo hash .dir .file a oldname newname fi
    | none => throw .noSuch

/-- The file branch of `RenameEntry`, once `childDir` has failed and `childFile` found `f`. -/
theorem renameEntry_of_childFile {s s₁ : Heap} {a f : Nat} {old new : String} {e : Error}
    {n : Node} (hcd : childDir hash a old s = .error e s) (he : e.isPanic = false)
    (hcf : childFile hash a old s = .ok f s₁) (hr : (s₁.dirs a).node.removeNodeLink old = .ok n) :
    renameEntry hash a old new s = closeParent hash a { s₁ with
      dirs := Function.update s₁.dirs a
        (({ s₁.dirs a with node := n.addNodeLinkClean hash new (s₁.files f).node }.setCache
          .dir old none).setCache .file new (some f))
      files := Function.update s₁.files f { s₁.files f with name := new } } := by
  simp [renameEntry, renameTo, attempt_of_error hcd he, attempt_of_ok hcf, removeLink, hr,
    addLink, Kind.fsNode, Heap.nodeOf]

/-- `d.AddChild(name, nd)`. -/
def addChild (a : Nat) (name : String) (nd : Node) : M Unit := do
  let pbn ← liftExcept nd.data.unmarshal
  if (← attempt (child hash a name)).isSome then
    throw (.new "directory already has entry by that name")
  addLink hash a name nd
  match pbn.type with
  | .directory =>
    let x ← newDirectory name nd (.dir a)
    modifyDir a (·.setCache .dir name (some x))
  | .file | .metadata | .raw =>
    let x ← newFile name nd a
    modifyDir a (·.setCache .file name (some x))
  | .other _ => throw (.panicked "invalid unixfs node")
  closeParent hash a

end Directory

/-- Modelled from the spec: a write replaces the overlay's node and closes it into its parent. -/
def flush : FSNode → Node → M Unit
  | .dir x, nd => do
    modifyDir x fun d => { d with node := nd }
    Directory.closeParent hash x
  | .file x, nd => do
    modifyFile x fun f => { f with node := nd }
    let f ← getFile x
    Directory.closeChild hash f.parent f.name

/-- The heap once a write has replaced the node of the overlay `x` by `nd`. -/
def Heap.setNode (s : Heap) : FSNode → Node → Heap
  | .dir x, nd => { s with dirs := Function.update s.dirs x { s.dirs x with node := nd } }
  | .file x, nd => { s with files := Function.update s.files x { s.files x with node := nd } }

theorem flush_dir (x : Nat) (nd : Node) (s : Heap) :
    flush hash (.dir x) nd s = Directory.closeParent hash x (s.setNode (.dir x) nd) :=
  rfl

theorem flush_file (x : Nat) (nd : Node) (s : Heap) :
    flush hash (.file x) nd s =
      Directory.closeChild hash (s.files x).parent (s.files x).name (s.setNode (.file x) nd) := by
  simp [flush, Heap.setNode]

/-! ## Worked examples -/

/-- The root over a folder node whose one link, `name`, leads to the stored node `nd`. -/
def Heap.linked (name : String) (nd : Node) : Heap :=
  Heap.root "" ⟨folderPBData, [⟨name, hash nd⟩]⟩ (.ofBlocks [nd])

/-- A content hash for the worked examples, by the size of the inline data. -/
def sizeHash (nd : Node) : Key :=
  match nd.data with
  | .pb d => toString d.data.length
  | .undecodable _ => ""

/-- A file node with the inline bytes "hi". -/
def hiFile : Node := ⟨filePBData [104, 105] 2, []⟩

/-- A file node with the inline bytes "hi!". -/
def hiBang : Node := ⟨filePBData [104, 105, 33] 3, []⟩

/-- A Raw node with the inline bytes "hi". -/
def rawNode : Node := ⟨.pb ⟨.raw, [104, 105], 2, []⟩, []⟩

end Ipnsfs

end GoIpfs
