import Mathlib.Data.List.Nodup
import GoIpfs.Unixfs.Format

/-!
# Merkle DAG nodes and the DAG service

`merkledag` is not among the modelled sources; what the overlay calls of it is modelled from the
spec. A link names its target by hash, a parameter `hash : Node → Key` nothing here assumes
injective. The `DAGService` holds a list of nodes: `get` finds one by hash (`hash_of_get`), and
`add` stores one or fails with the error the service gives for it.
-/

namespace GoIpfs

/-- `u.Key`: a content hash. -/
abbrev Key := String

/-- `merkledag.Link`, without the size and the in-memory node cache nothing modelled reads. -/
structure Link where
  name : String
  hash : Key
  deriving DecidableEq, Repr

/-- `merkledag.Node`. -/
structure Node where
  data : Payload
  links : List Link
  deriving DecidableEq, Repr

namespace Node

/-- Modelled from the spec: `n.RemoveNodeLink(name)`, failing with `ErrNotFound`. -/
def removeNodeLink (n : Node) (name : String) : Except Error Node :=
  if n.links.any (·.name = name) then .ok { n with links := n.links.eraseP (·.name = name) }
  else .error .notFound

/-- Modelled from the spec: `n.AddNodeLinkClean(name, that)`: drop the name's links, append. -/
def addNodeLinkClean (hash : Node → Key) (n : Node) (name : String) (that : Node) : Node :=
  { n with links := n.links.filter (·.name ≠ name) ++ [⟨name, hash that⟩] }

/-- The names of the links, in order. -/
def names (n : Node) : List String := n.links.map (·.name)

/-- After a clean insert, the node has exactly one link of the name, to the node inserted. -/
theorem filter_addNodeLinkClean (hash : Node → Key) (n : Node) (name : String) (that : Node) :
    (n.addNodeLinkClean hash name that).links.filter (·.name = name) = [⟨name, hash that⟩] := by
  simp [addNodeLinkClean, List.filter_append, List.filter_filter]

theorem nodup_names_addNodeLinkClean (hash : Node → Key) {n : Node} (h : n.names.Nodup)
    (name : String) (that : Node) : (n.addNodeLinkClean hash name that).names.Nodup := by
  simp only [names, addNodeLinkClean, List.map_append, List.map_cons, List.map_nil]
  refine List.nodup_append.2 ⟨h.sublist ((List.filter_sublist _).map _), List.nodup_singleton _, ?_⟩
  simp

/-- Removing the first link of a name keeps the links of the other names, in order. -/
theorem filter_removeNodeLink {n n' : Node} {name : String} (hr : n.removeNodeLink name = .ok n') :
    n'.links.filter (·.name ≠ name) = n.links.filter (·.name ≠ name) := by
  unfold removeNodeLink at hr
  split at hr
  · cases hr
    rcases List.exists_or_eq_self_of_eraseP (fun l : Link => decide (l.name = name)) n.links with
      h | ⟨c, l₁, l₂, -, hc, hl, he⟩
    · rw [h]
    · rw [he, hl]
      simp_all [List.filter_append]
  · cases hr

/-- Removing and cleanly reinserting a last, only link of its name gives the node back. -/
theorem relink_of_last (hash : Node → Key) {n : Node} {l : List Link} {name : String}
    {that : Node} (hl : n.links = l ++ [⟨name, hash that⟩]) (hn : ∀ x ∈ l, x.name ≠ name) :
    n.removeNodeLink name = .ok { n with links := l } ∧
      { n with links := l }.addNodeLinkClean hash name that = n := by
  have hf : l.filter (·.name ≠ name) = l := List.filter_eq_self.2 (by simpa using hn)
  constructor
  · have hn' : ∀ b ∈ l, ¬(decide (b.name = name)) := by simpa using hn
    simp [removeNodeLink, hl, List.eraseP_append_right _ hn']
  · cases n
    simp_all [addNodeLinkClean]

theorem nodup_names_removeNodeLink {n n' : Node} {name : String} (h : n.names.Nodup)
    (hr : n.removeNodeLink name = .ok n') : n'.names.Nodup := by
  unfold removeNodeLink at hr
  split at hr
  · cases hr
    exact h.sublist ((List.eraseP_sublist _).map _)
  · cases hr

/-- The names of the links of the other names are those left after a filter by the name. -/
theorem mem_map_name_filter {ls : List Link} {name m : String} (hm : m ≠ name) :
    m ∈ (ls.filter (·.name ≠ name)).map (·.name) ↔ m ∈ ls.map (·.name) := by
  simp only [List.mem_map, List.mem_filter, decide_eq_true_eq]
  exact ⟨fun ⟨l, ⟨hl, _⟩, he⟩ => ⟨l, hl, he⟩,
    fun ⟨l, hl, he⟩ => ⟨l, ⟨hl, by rw [he]; exact hm⟩, he⟩⟩

/-- A clean insert links the name and keeps every other name. -/
theorem mem_names_addNodeLinkClean (hash : Node → Key) {n : Node} {name m : String}
    {that : Node} :
    m ∈ (n.addNodeLinkClean hash name that).names ↔ m = name ∨ m ∈ n.names := by
  by_cases hm : m = name
  · simp [names, addNodeLinkClean, hm]
  · simp only [names, addNodeLinkClean, List.map_append, List.mem_append, mem_map_name_filter hm]
    simp [hm]

/-- A removal keeps every other name. -/
theorem mem_names_removeNodeLink {n n' : Node} {name m : String}
    (hr : n.removeNodeLink name = .ok n') (hm : m ≠ name) : m ∈ n'.names ↔ m ∈ n.names := by
  rw [names, names, ← mem_map_name_filter hm, filter_removeNodeLink hr, mem_map_name_filter hm]

/-- A removal that succeeds takes out the first link of the name. -/
theorem links_removeNodeLink {n n' : Node} {name : String} (hr : n.removeNodeLink name = .ok n') :
    n'.links = n.links.eraseP (·.name = name) := by
  unfold removeNodeLink at hr
  split at hr <;> cases hr
  rfl

/-- A removal of a name the node links succeeds. -/
theorem removeNodeLink_of_mem {n : Node} {name : String} (h : name ∈ n.names) :
    ∃ n', n.removeNodeLink name = .ok n' := by
  obtain ⟨l, hl, rfl⟩ := List.mem_map.1 h
  exact ⟨_, if_pos (List.any_eq_true.2 ⟨l, hl, decide_eq_true rfl⟩)⟩

/-- `RemoveNodeLink` fails only for want of a link of the name. -/
theorem removeNodeLink_error {n : Node} {name : String} {e : Error}
    (hr : n.removeNodeLink name = .error e) : e = .notFound := by
  unfold removeNodeLink at hr
  split at hr <;> cases hr
  rfl

/-- A clean insert after a removal of the name is the clean insert into the node as it was. -/
theorem addNodeLinkClean_of_removeNodeLink (hash : Node → Key) {n n' : Node} {name : String}
    (hr : n.removeNodeLink name = .ok n') (that : Node) :
    n'.addNodeLinkClean hash name that = n.addNodeLinkClean hash name that := by
  have hd : n'.data = n.data := by
    unfold removeNodeLink at hr
    split at hr <;> cases hr
    rfl
  simp only [addNodeLinkClean, filter_removeNodeLink hr, hd]

/-- After a clean insert, the first link of the name is the one inserted. -/
theorem find?_addNodeLinkClean_self (hash : Node → Key) (n : Node) (name : String)
    (that : Node) :
    (n.addNodeLinkClean hash name that).links.find? (·.name = name) =
      some ⟨name, hash that⟩ := by
  rw [← List.filter_head?, filter_addNodeLinkClean]
  rfl

/-- A filter that takes out one name keeps the first link of every other name. -/
theorem find?_filter_ne {ls : List Link} {name m : String} (hm : m ≠ name) :
    (ls.filter (·.name ≠ name)).find? (·.name = m) = ls.find? (·.name = m) := by
  rw [← List.filter_head?, ← List.filter_head?, List.filter_filter]
  congr 2
  funext l
  by_cases h : l.name = m <;> simp [h, hm]

/-- A clean insert keeps the first link of every other name. -/
theorem find?_addNodeLinkClean_ne (hash : Node → Key) (n : Node) {name m : String} (that : Node)
    (hm : m ≠ name) :
    (n.addNodeLinkClean hash name that).links.find? (·.name = m) =
      n.links.find? (·.name = m) := by
  show (n.links.filter (fun l : Link => l.name ≠ name) ++ [(⟨name, hash that⟩ : Link)]).find?
    (·.name = m) = _
  rw [List.find?_append, find?_filter_ne hm]
  simp [Ne.symm hm]

/-- A removal keeps the first link of every other name. -/
theorem find?_removeNodeLink_ne {n n' : Node} {name m : String}
    (hr : n.removeNodeLink name = .ok n') (hm : m ≠ name) :
    n'.links.find? (·.name = m) = n.links.find? (·.name = m) := by
  rw [← find?_filter_ne hm, filter_removeNodeLink hr, find?_filter_ne hm]

end Node

/-- Modelled from the spec: the nodes the store holds, and the error `Add` returns for a node. -/
structure DAGService where
  blocks : List Node
  addError : List Node → Node → Option Error

namespace DAGService

variable (hash : Node → Key)

/-- Modelled from the spec: `ds.Get(k)`, the stored node with hash `k`. -/
def get (ds : DAGService) (k : Key) : Except Error Node :=
  match ds.blocks.find? (hash · = k) with
  | some n => .ok n
  | none => .error (.new "blockservice: key not found")

/-- The service once it holds `n`. -/
def insert (ds : DAGService) (n : Node) : DAGService := ⟨n :: ds.blocks, ds.addError⟩

/-- Modelled from the spec: `ds.Add(n)` stores `n` and returns its key, or fails. -/
def add (ds : DAGService) (n : Node) : Except Error (DAGService × Key) :=
  match ds.addError ds.blocks n with
  | some e => .error e
  | none => .ok (ds.insert n, hash n)

/-- `Add` never fails. -/
def Accepts (ds : DAGService) : Prop := ∀ bs n, ds.addError bs n = none

/-- A service over `blocks` whose `Add` never fails. -/
def ofBlocks (blocks : List Node) : DAGService := ⟨blocks, fun _ _ => none⟩

theorem accepts_ofBlocks (blocks : List Node) : (ofBlocks blocks).Accepts := fun _ _ => rfl

theorem Accepts.insert {ds : DAGService} (h : ds.Accepts) (n : Node) : (ds.insert n).Accepts := h

theorem hash_of_get {ds : DAGService} {k : Key} {n : Node} (h : ds.get hash k = .ok n) :
    hash n = k := by
  unfold get at h
  split at h
  · rename_i found
    cases h
    have hk := List.find?_some found
    exact of_decide_eq_true hk
  · cases h

/-- What `get` returns the service holds. -/
theorem mem_of_get {ds : DAGService} {k : Key} {n : Node} (h : ds.get hash k = .ok n) :
    n ∈ ds.blocks := by
  unfold get at h
  split at h
  · rename_i found
    cases h
    exact List.mem_of_find?_eq_some found
  · cases h

/-- No two nodes the service holds share a key. -/
def NoCollision (ds : DAGService) : Prop :=
  ∀ n₁ ∈ ds.blocks, ∀ n₂ ∈ ds.blocks, hash n₁ = hash n₂ → n₁ = n₂

instance (ds : DAGService) : Decidable (ds.NoCollision hash) :=
  inferInstanceAs
    (Decidable (∀ n₁ ∈ ds.blocks, ∀ n₂ ∈ ds.blocks, hash n₁ = hash n₂ → n₁ = n₂))

/-- A node the service holds is found under its key, and `get` returns it without collisions. -/
theorem get_of_mem {ds : DAGService} {nd : Node} (h : nd ∈ ds.blocks) :
    ∃ n, ds.get hash (hash nd) = .ok n ∧ (ds.NoCollision hash → n = nd) := by
  obtain ⟨n, hn⟩ := Option.isSome_iff_exists.1
    (List.find?_isSome.2 ⟨nd, h, by simp⟩ : (ds.blocks.find? (hash · = hash nd)).isSome)
  refine ⟨n, by simp only [get, hn], fun hc => hc n (List.mem_of_find?_eq_some hn) nd h ?_⟩
  simpa using List.find?_some hn

end DAGService

end GoIpfs
