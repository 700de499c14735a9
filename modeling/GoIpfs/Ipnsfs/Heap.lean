import GoIpfs.Merkledag.Node
import Mathlib.Logic.Function.Basic

/-!
# The overlay's heap

The overlays live in a heap by address, next to the `DAGService` they share; their methods are
programs of `M`, a state monad that fails with an `Error`, keeping what it changed before it
failed. `Preserves P x` says that `x` keeps `P`, whether it returns or fails.
-/

namespace GoIpfs

namespace Ipnsfs

/-- What an overlay closes into: a directory, or the sink above the root. -/
inductive Parent where
  | sink
  | dir (a : Nat)
  deriving DecidableEq, Repr

/-- `ipnsfs.Directory`, without the shared `dserv` and the unused `ref`. -/
structure Directory where
  parent : Parent
  childDirs : String → Option Nat
  files : String → Option Nat
  node : Node
  name : String

/-- Modelled from the spec: `ipnsfs.file`, the File Overlay. -/
structure File where
  parent : Nat
  node : Node
  name : String

/-- `ipnsfs.FSNode`: an overlay, by kind and address. -/
inductive FSNode where
  | dir (a : Nat)
  | file (a : Nat)
  deriving DecidableEq, Repr

/-- The two kinds of overlay a directory caches: directories in `childDirs`, files in `files`. -/
inductive Kind where
  | dir
  | file
  deriving DecidableEq, Repr

/-- The unixfs type of the nodes the overlays of a kind are made for. -/
def Kind.dataType : Kind → DataType
  | .dir => .directory
  | .file => .file

/-- The overlay of a kind at an address. -/
def Kind.fsNode : Kind → Nat → FSNode
  | .dir => .dir
  | .file => .file

namespace Directory

/-- The cache of a kind. -/
def cache (d : Directory) : Kind → String → Option Nat
  | .dir => d.childDirs
  | .file => d.files

/-- Set the entry `name` of the cache of a kind. -/
def setCache (d : Directory) (k : Kind) (name : String) (x : Option Nat) : Directory :=
  match k with
  | .dir => { d with childDirs := Function.update d.childDirs name x }
  | .file => { d with files := Function.update d.files name x }

@[simp] theorem node_setCache (d : Directory) (k : Kind) (name : String) (x : Option Nat) :
    (d.setCache k name x).node = d.node := by
  cases k <;> rfl

@[simp] theorem parent_setCache (d : Directory) (k : Kind) (name : String) (x : Option Nat) :
    (d.setCache k name x).parent = d.parent := by
  cases k <;> rfl

@[simp] theorem name_setCache (d : Directory) (k : Kind) (name : String) (x : Option Nat) :
    (d.setCache k name x).name = d.name := by
  cases k <;> rfl

theorem cache_setCache (d : Directory) (k k' : Kind) (name name' : String) (x : Option Nat) :
    (d.setCache k name x).cache k' name' =
      if k' = k ∧ name' = name then x else d.cache k' name' := by
  cases k <;> cases k' <;> by_cases h : name' = name <;>
    simp [setCache, cache, Function.update, h]

end Directory

/-- The overlays by address, the next free addresses, and the DAG service. -/
structure Heap where
  dirs : Nat → Directory
  files : Nat → File
  nextDir : Nat
  nextFile : Nat
  dserv : DAGService

/-- The heap whose root at address 0 is `NewDirectory(name, node, sink, dserv)`. -/
def Heap.root (name : String) (node : Node) (dserv : DAGService) : Heap :=
  let d : Directory := ⟨.sink, fun _ => none, fun _ => none, node, name⟩
  ⟨fun _ => d, fun _ => ⟨0, node, name⟩, 1, 0, dserv⟩

/-- The programs of the overlay's methods. -/
abbrev M := EStateM Error Heap

/-! ## Primitives -/

section Primitives

variable {α : Type}

/-- The directory at `a`. -/
def getDir (a : Nat) : M Directory := fun s => .ok (s.dirs a) s

/-- The file at `f`. -/
def getFile (f : Nat) : M File := fun s => .ok (s.files f) s

/-- Change the directory at `a` by `g`. -/
def modifyDir (a : Nat) (g : Directory → Directory) : M Unit := fun s =>
  .ok () { s with dirs := Function.update s.dirs a (g (s.dirs a)) }

/-- Change the file at `f` by `g`. -/
def modifyFile (f : Nat) (g : File → File) : M Unit := fun s =>
  .ok () { s with files := Function.update s.files f (g (s.files f)) }

/-- Put `d` at the next free directory address and return it. -/
def allocDir (d : Directory) : M Nat := fun s =>
  .ok s.nextDir { s with dirs := Function.update s.dirs s.nextDir d, nextDir := s.nextDir + 1 }

/-- Put `f` at the next free file address and return it. -/
def allocFile (f : File) : M Nat := fun s =>
  .ok s.nextFile
    { s with files := Function.update s.files s.nextFile f, nextFile := s.nextFile + 1 }

/-- A Go call that returns a value or an error. -/
def liftExcept : Except Error α → M α
  | .ok a => fun s => .ok a s
  | .error e => fun s => .error e s

/-- Go's `v, err := x; if err == nil { … }`: an error gives `none`, a panic unwinds. -/
def attempt (x : M α) : M (Option α) := fun s =>
  match x s with
  | .ok a s' => .ok (some a) s'
  | .error e s' => if e.isPanic then .error e s' else .ok none s'

/-- Run `x`, ignoring the error `e`: Go's `if err != nil && err != e { return err }`. -/
def ignoring (e : Error) (x : M Unit) : M Unit := fun s =>
  match x s with
  | .error e' s' => if e' = e then .ok () s' else .error e' s'
  | r => r

variable (hash : Node → Key)

/-- `lnk.GetNode(d.dserv)`: the node the shared DAG service stores under the link's hash. -/
def fetch (k : Key) : M Node := fun s => (liftExcept (s.dserv.get hash k)) s

/-- `d.dserv.Add(nd)`: the service stores the node, or the call fails with its error. -/
def store (nd : Node) : M Unit := fun s =>
  match s.dserv.add hash nd with
  | .ok (ds, _) => .ok () { s with dserv := ds }
  | .error e => .error e s

/-- `d.node.RemoveNodeLink(name)` on the directory at `a`. -/
def removeLink (a : Nat) (name : String) : M Unit := fun s =>
  match (s.dirs a).node.removeNodeLink name with
  | .ok n => (modifyDir a fun d => { d with node := n }) s
  | .error e => .error e s

/-- `d.node.AddNodeLinkClean(name, that)` on the directory at `a`. -/
def addLink (a : Nat) (name : String) (that : Node) : M Unit :=
  modifyDir a fun d => { d with node := d.node.addNodeLinkClean hash name that }

/-- The node of an overlay. -/
def Heap.nodeOf (s : Heap) : FSNode → Node
  | .dir x => (s.dirs x).node
  | .file x => (s.files x).node

/-- The name of an overlay. -/
def Heap.nameOf (s : Heap) : FSNode → String
  | .dir x => (s.dirs x).name
  | .file x => (s.files x).name

/-- What an overlay closes into. -/
def Heap.parentOf (s : Heap) : FSNode → Parent
  | .dir x => (s.dirs x).parent
  | .file x => .dir (s.files x).parent

/-- The overlay has been allocated. -/
def Heap.Allocated (s : Heap) : FSNode → Prop
  | .dir x => x < s.nextDir
  | .file x => x < s.nextFile

/-! ### Running the primitives -/

@[simp] theorem bind_apply (x : M α) (f : α → M β) (s : Heap) :
    (x >>= f) s = match x s with
      | .ok a s' => f a s'
      | .error e s' => .error e s' := by
  show EStateM.bind x f s = _
  unfold EStateM.bind
  cases x s <;> rfl

@[simp] theorem map_apply (f : α → β) (x : M α) (s : Heap) :
    (f <$> x) s = match x s with
      | .ok a s' => .ok (f a) s'
      | .error e s' => .error e s' := by
  show EStateM.map f x s = _
  unfold EStateM.map
  cases x s <;> rfl

@[simp] theorem pure_apply (a : α) (s : Heap) : (pure a : M α) s = .ok a s := rfl

@[simp] theorem throw_apply (e : Error) (s : Heap) : (throw e : M α) s = .error e s := rfl

@[simp] theorem getDir_apply (a : Nat) (s : Heap) : getDir a s = .ok (s.dirs a) s := rfl

@[simp] theorem getFile_apply (f : Nat) (s : Heap) : getFile f s = .ok (s.files f) s := rfl

@[simp] theorem modifyDir_apply (a : Nat) (g : Directory → Directory) (s : Heap) :
    modifyDir a g s = .ok () { s with dirs := Function.update s.dirs a (g (s.dirs a)) } :=
  rfl

@[simp] theorem modifyFile_apply (f : Nat) (g : File → File) (s : Heap) :
    modifyFile f g s = .ok () { s with files := Function.update s.files f (g (s.files f)) } :=
  rfl

@[simp] theorem allocDir_apply (d : Directory) (s : Heap) :
    allocDir d s = .ok s.nextDir
      { s with dirs := Function.update s.dirs s.nextDir d, nextDir := s.nextDir + 1 } :=
  rfl

@[simp] theorem allocFile_apply (f : File) (s : Heap) :
    allocFile f s = .ok s.nextFile
      { s with files := Function.update s.files s.nextFile f, nextFile := s.nextFile + 1 } :=
  rfl

@[simp] theorem liftExcept_ok (a : α) (s : Heap) : liftExcept (.ok a) s = .ok a s := rfl

@[simp] theorem liftExcept_error (e : Error) (s : Heap) :
    (liftExcept (.error e) : M α) s = .error e s :=
  rfl

@[simp] theorem fetch_apply (k : Key) (s : Heap) :
    fetch hash k s = liftExcept (s.dserv.get hash k) s :=
  rfl

theorem store_of_accepted {nd : Node} {s : Heap} (h : s.dserv.addError s.dserv.blocks nd = none) :
    store hash nd s = .ok () { s with dserv := s.dserv.insert nd } := by
  simp [store, DAGService.add, h]

theorem store_of_refused {nd : Node} {s : Heap} {e : Error}
    (h : s.dserv.addError s.dserv.blocks nd = some e) : store hash nd s = .error e s := by
  simp [store, DAGService.add, h]

theorem store_of_accepts {nd : Node} {s : Heap} (h : s.dserv.Accepts) :
    store hash nd s = .ok () { s with dserv := s.dserv.insert nd } :=
  store_of_accepted hash (h _ _)

theorem store_eq_ok {nd : Node} {s s' : Heap} {u : Unit} (h : store hash nd s = .ok u s') :
    s.dserv.addError s.dserv.blocks nd = none ∧ s' = { s with dserv := s.dserv.insert nd } := by
  cases he : s.dserv.addError s.dserv.blocks nd with
  | none => rw [store_of_accepted hash he] at h; cases h; exact ⟨rfl, rfl⟩
  | some e => rw [store_of_refused hash he] at h; cases h

theorem bind_eq_ok {x : M α} {f : α → M β} {s s' : Heap} {b : β} (h : (x >>= f) s = .ok b s') :
    ∃ a s₁, x s = .ok a s₁ ∧ f a s₁ = .ok b s' := by
  rw [bind_apply] at h
  split at h
  · exact ⟨_, _, ‹_›, h⟩
  · cases h

theorem attempt_of_ok {x : M α} {s s' : Heap} {a : α} (h : x s = .ok a s') :
    attempt x s = .ok (some a) s' := by
  simp [attempt, h]

theorem attempt_of_error {x : M α} {s s' : Heap} {e : Error} (h : x s = .error e s')
    (he : e.isPanic = false) : attempt x s = .ok none s' := by
  simp [attempt, h, he]

theorem attempt_of_panic {x : M α} {s s' : Heap} {e : Error} (h : x s = .error e s')
    (he : e.isPanic = true) : attempt x s = .error e s' := by
  simp only [attempt, h, he, if_true]

theorem attempt_eq_ok {x : M α} {s s' : Heap} {o : Option α} (h : attempt x s = .ok o s') :
    (∃ a, o = some a ∧ x s = .ok a s') ∨ (o = none ∧ ∃ e, e.isPanic = false ∧ x s = .error e s') := by
  unfold attempt at h
  split at h
  · cases h
    exact .inl ⟨_, rfl, ‹_›⟩
  · rename_i e _ hx
    split at h
    · cases h
    · cases h
      exact .inr ⟨rfl, e, Bool.eq_false_iff.mpr ‹_›, hx⟩

end Primitives

/-! ## Invariants

`after x s` is the state a run of `x` from `s` leaves, whether it returns or fails, and
`Preserves P x` says that it satisfies `P` whenever `s` does. The rules below take
`Preserves` through the binds, branches and error handling of the methods, so that a method
keeps an invariant as soon as every primitive it calls does. -/

section Preserves

variable {α β : Type} {P : Heap → Prop}

/-- The state a run of `x` from `s` leaves, whether it returns or fails. -/
def after (x : M α) (s : Heap) : Heap :=
  match x s with
  | .ok _ s' => s'
  | .error _ s' => s'

/-- `x` keeps `P`: from every state satisfying `P`, it leaves one satisfying `P`. -/
def Preserves (P : Heap → Prop) (x : M α) : Prop := ∀ s, P s → P (after x s)

theorem after_of_ok {x : M α} {s s' : Heap} {a : α} (h : x s = .ok a s') : after x s = s' := by
  simp [after, h]

theorem after_of_error {x : M α} {s s' : Heap} {e : Error} (h : x s = .error e s') :
    after x s = s' := by
  simp [after, h]

theorem Preserves.of_ok {x : M α} {s s' : Heap} {a : α} (hx : Preserves P x)
    (h : x s = .ok a s') (hs : P s) : P s' :=
  after_of_ok h ▸ hx s hs

theorem after_removeLink (a : Nat) (name : String) (s : Heap) :
    after (removeLink a name) s = match (s.dirs a).node.removeNodeLink name with
      | .ok n => after (modifyDir a fun d => { d with node := n }) s
      | .error _ => s := by
  simp only [after, removeLink]
  cases (s.dirs a).node.removeNodeLink name <;> rfl

theorem Preserves.of_after {x : M α} (h : ∀ s, after x s = s) : Preserves P x :=
  fun s hs => (h s).symm ▸ hs

theorem Preserves.pure (a : α) : Preserves P (pure a : M α) := .of_after fun _ => rfl

theorem Preserves.throw (e : Error) : Preserves P (throw e : M α) := .of_after fun _ => rfl

theorem Preserves.getDir (a : Nat) : Preserves P (getDir a) := .of_after fun _ => rfl

theorem Preserves.getFile (f : Nat) : Preserves P (getFile f) := .of_after fun _ => rfl

theorem Preserves.liftExcept (x : Except Error α) : Preserves P (liftExcept x) :=
  .of_after fun _ => by cases x <;> rfl

theorem Preserves.fetch (hash : Node → Key) (k : Key) : Preserves P (fetch hash k) :=
  fun s => Preserves.liftExcept (s.dserv.get hash k) s

theorem Preserves.store (hash : Node → Key) {nd : Node}
    (h : ∀ s, P s → P { s with dserv := s.dserv.insert nd }) : Preserves P (store hash nd) := by
  intro s hs
  cases he : s.dserv.addError s.dserv.blocks nd with
  | none => rw [after_of_ok (store_of_accepted hash he)]; exact h s hs
  | some e => rw [after_of_error (store_of_refused hash he)]; exact hs

theorem Preserves.bind {x : M α} {f : α → M β} (hx : Preserves P x)
    (hf : ∀ a, Preserves P (f a)) : Preserves P (x >>= f) := by
  intro s hs
  have h := hx s hs
  revert h
  simp only [after, bind_apply]
  cases x s with
  | ok a s' => exact hf a s'
  | error _ _ => exact id

theorem Preserves.attempt {x : M α} (hx : Preserves P x) : Preserves P (attempt x) := by
  intro s hs
  have h := hx s hs
  revert h
  simp only [after, GoIpfs.Ipnsfs.attempt]
  cases x s with
  | ok _ _ => exact id
  | error e _ => by_cases hp : e.isPanic = true <;> simp [hp]

theorem Preserves.ignoring {x : M Unit} (e : Error) (hx : Preserves P x) :
    Preserves P (ignoring e x) := by
  intro s hs
  have h := hx s hs
  revert h
  simp only [after, GoIpfs.Ipnsfs.ignoring]
  cases x s with
  | ok _ _ => exact id
  | error e' _ => by_cases he : e' = e <;> simp [he]

end Preserves

end Ipnsfs

end GoIpfs
