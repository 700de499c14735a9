import GoIpfs.Ipnsfs.Dir

/-!
# What every method keeps

A method keeps an invariant as soon as the primitives it is written with keep it. `Stable P b`
lists what is asked of them, for the directories below the bound `b`; the walk up from `a` changes
only `a` and lower addresses, so each method's lemma is proved once from `Stable`. The frame
lemmas of the walk up (`closeParent_dirs`, `closeChild_files`) and the run lemma (`runCalls`)
follow.
-/

namespace GoIpfs

namespace Ipnsfs

variable (hash : Node → Key)

/-- A change to a directory that touches its caches only. -/
def CachesOnly (g : Directory → Directory) : Prop :=
  ∀ d, (g d).node = d.node ∧ (g d).parent = d.parent ∧ (g d).name = d.name

theorem cachesOnly_setCache (k : Kind) (name : String) (x : Option Nat) :
    CachesOnly (·.setCache k name x) :=
  fun d => by simp

/-- What an invariant asks of the primitives for the methods to keep it. -/
structure Stable (P : Heap → Prop) (b : Nat) : Prop where
  cache : ∀ a < b, ∀ g, CachesOnly g → Preserves P (modifyDir a g)
  allocDir : ∀ d, Preserves P (allocDir d)
  allocFile : ∀ f, Preserves P (allocFile f)
  insert : ∀ nd s, P s → P { s with dserv := s.dserv.insert nd }
  removeLink : ∀ a < b, ∀ name, Preserves P (removeLink a name)
  addLink : ∀ a < b, ∀ name nd, Preserves P (addLink hash a name nd)

section Rules

variable {α β : Type} {P : Heap → Prop}

theorem Preserves.throw_bind (e : Error) (f : α → M β) :
    Preserves P ((MonadExcept.throw e : M α) >>= f) :=
  .of_after fun _ => rfl

theorem Preserves.getNode (c : FSNode) : Preserves P (getNode c) :=
  .of_after fun _ => by cases c <;> rfl

end Rules

namespace Stable

variable {hash} {P : Heap → Prop} {b a : Nat} (hP : Stable hash P b)
include hP

theorem store (nd : Node) : Preserves P (store hash nd) := .store hash (hP.insert nd)

theorem make (k : Kind) (name : String) (nd : Node) : Preserves P (k.make name nd a) := by
  cases k
  · exact hP.allocDir _
  · exact hP.allocFile _

theorem newChild (ha : a < b) (k : Kind) (other : Error) (name : String) (nd : Node) (i : Data) :
    Preserves P (Directory.newChild k other a name nd i) := by
  unfold Directory.newChild
  split_ifs
  · exact .bind (hP.make k name nd) fun x =>
      .bind (hP.cache a ha _ (cachesOnly_setCache _ _ _)) fun _ => .pure x
  all_goals exact .throw _

theorem lookupChild (ha : a < b) (k : Kind) (other : Error) (name : String) :
    Preserves P (Directory.lookupChild hash k other a name) := by
  unfold Directory.lookupChild
  refine .bind (.getDir a) fun d => ?_
  split
  · exact .pure _
  · split
    · exact .throw _
    · exact .bind (.fetch hash _) fun nd => .bind (.liftExcept _) fun i =>
        hP.newChild ha k other name nd i

theorem child (ha : a < b) (name : String) : Preserves P (Directory.child hash a name) := by
  unfold Directory.child
  refine .bind (hP.lookupChild ha _ _ _).attempt fun o => ?_
  split
  · exact .pure _
  · refine .bind (hP.lookupChild ha _ _ _).attempt fun o => ?_
    split
    · exact .pure _
    · exact .throw _

/-- The walk up, by strong induction on the address: `closeParent a` calls only lower addresses. -/
theorem close (a : Nat) :
    (∀ name, a < b → Preserves P (Directory.closeChild hash a name)) ∧
      (a ≤ b → Preserves P (Directory.closeParent hash a)) := by
  induction a using Nat.strong_induction_on with
  | _ a ih =>
    have parent : a ≤ b → Preserves P (Directory.closeParent hash a) := fun ha => by
      rw [Directory.closeParent]
      refine .bind (.getDir a) fun d => ?_
      split
      · exact .pure _
      · split
        · exact (ih _ ‹_›).1 _ (by omega)
        · exact .throw _
    refine ⟨fun name ha => ?_, parent⟩
    rw [Directory.closeChild]
    exact .bind (hP.child ha name) fun c => .bind (.getNode c) fun nd =>
      .bind (hP.store nd) fun _ => .bind (.ignoring _ (hP.removeLink a ha name)) fun _ =>
        .bind (hP.addLink a ha name nd) fun _ => parent ha.le

theorem closeChild (ha : a < b) (name : String) :
    Preserves P (Directory.closeChild hash a name) :=
  (hP.close a).1 name ha

theorem closeParent (ha : a ≤ b) : Preserves P (Directory.closeParent hash a) :=
  (hP.close a).2 ha

theorem mkdir (ha : a < b) (name : String) : Preserves P (Directory.mkdir hash a name) := by
  unfold Directory.mkdir
  refine .bind (hP.lookupChild ha _ _ _).attempt fun o => ?_
  dsimp only
  split
  · exact .throw_bind _ _
  refine .bind (.pure _) fun _ => .bind (hP.lookupChild ha _ _ _).attempt fun o => ?_
  split
  · exact .throw_bind _ _
  exact .bind (.pure _) fun _ => .bind (hP.addLink a ha _ _) fun _ =>
    .bind (hP.closeParent ha.le) fun _ => hP.lookupChild ha _ _ _

theorem unlink (ha : a < b) (name : String) : Preserves P (Directory.unlink hash a name) :=
  .bind (hP.cache a ha _ fun d => by simp) fun _ =>
    .bind (hP.removeLink a ha name) fun _ => hP.closeParent ha.le

theorem addChild (ha : a < b) (name : String) (nd : Node) :
    Preserves P (Directory.addChild hash a name nd) := by
  unfold Directory.addChild
  refine .bind (.liftExcept _) fun pbn => .bind (hP.child ha name).attempt fun o => ?_
  dsimp only
  split
  · exact .throw_bind _ _
  refine .bind (.pure _) fun _ => .bind (hP.addLink a ha _ _) fun _ => ?_
  split
  · exact .bind (hP.allocDir _) fun x =>
      .bind (hP.cache a ha _ (cachesOnly_setCache _ _ _)) fun _ => hP.closeParent ha.le
  iterate 3
    exact .bind (hP.allocFile _) fun x =>
      .bind (hP.cache a ha _ (cachesOnly_setCache _ _ _)) fun _ => hP.closeParent ha.le
  · exact .throw_bind _ _

section Rename

variable (hr : ∀ x n, Preserves P (modifyDir x fun d => { d with name := n }))
  (hf : ∀ x n, Preserves P (modifyFile x fun f => { f with name := n }))
include hr hf

theorem renameTo (ha : a < b) (del ins : Kind) (oldname newname : String) (x : Nat) :
    Preserves P (Directory.renameTo hash del ins a oldname newname x) := by
  unfold Directory.renameTo
  cases ins <;> dsimp only <;>
    refine .bind ?_ fun _ => .bind (hP.removeLink a ha _) fun _ => .bind (.getNode _) fun _ =>
      .bind (hP.addLink a ha _ _) fun _ => .bind (hP.cache a ha _ fun d => by simp) fun _ =>
        hP.closeParent ha.le
  · exact hr x newname
  · exact hf x newname

theorem renameEntry (ha : a < b) (oldname newname : String) :
    Preserves P (Directory.renameEntry hash a oldname newname) := by
  unfold Directory.renameEntry
  refine .bind (hP.lookupChild ha _ _ _).attempt fun o => ?_
  split
  · exact hP.renameTo hr hf ha _ _ _ _ _
  · refine .bind (hP.lookupChild ha _ _ _).attempt fun o => ?_
    split
    · exact hP.renameTo hr hf ha _ _ _ _ _
    · exact .throw _

end Rename

end Stable

/-- `Open` keeps an invariant that every bound makes stable. -/
theorem Stable.open {P : Heap → Prop} (hP : ∀ b, Stable hash P b) (a : Nat) (tpath : List String)
    (mode : Nat) : Preserves P (Directory.open hash a tpath mode) := by
  induction a, tpath, mode using Directory.open.induct hash with
  | case1 a mode => exact .throw _
  | case2 a p mode =>
    have hP := hP (a + 1)
    rw [Directory.open]
    refine .bind (hP.lookupChild (Nat.lt_succ_self a) _ _ _).attempt fun o => ?_
    split
    · exact .pure _
    · split
      · exact .bind (hP.allocFile _) fun x =>
          .bind (hP.cache a (Nat.lt_succ_self a) _ (cachesOnly_setCache _ _ _)) fun _ => .pure x
      · exact .throw _
  | case3 a p rest mode hne ih =>
    rw [Directory.open.eq_3 hash a mode p rest hne]
    exact .bind ((hP (a + 1)).lookupChild (Nat.lt_succ_self a) _ _ _) fun dir => ih dir

/-! ## Frames -/

section Frame

variable {hash}

/-- An allocated directory at `x` is left alone by the primitives below `x`. -/
theorem stable_dir (x : Nat) (D : Directory) :
    Stable hash (fun s => x < s.nextDir ∧ s.dirs x = D) x := by
  have hmod : ∀ a < x, ∀ g, Preserves (fun s => x < s.nextDir ∧ s.dirs x = D) (modifyDir a g) :=
    fun a ha g s hs => ⟨hs.1, by simp [after, Function.update_noteq (Nat.ne_of_gt ha), hs.2]⟩
  refine ⟨fun a ha g _ => hmod a ha g, fun d s hs => ?_, fun _ _ hs => hs, fun _ _ hs => hs,
    fun a ha name s hs => ?_, fun a ha _ _ => hmod a ha _⟩
  · exact ⟨by simp [after]; omega, by simp [after, Function.update_noteq (Nat.ne_of_lt hs.1), hs.2]⟩
  · rw [after_removeLink]
    split
    · exact hmod a ha _ s hs
    · exact hs

/-- An allocated file is left alone by every primitive of the lookups and the walk up. -/
theorem stable_file (f : Nat) (F : File) (b : Nat) :
    Stable hash (fun s => f < s.nextFile ∧ s.files f = F) b := by
  refine ⟨fun _ _ _ _ _ hs => hs, fun _ _ hs => hs, fun d s hs => ?_, fun _ _ hs => hs,
    fun a _ name s hs => ?_, fun _ _ _ _ _ hs => hs⟩
  · exact ⟨by simp [after]; omega, by simp [after, Function.update_noteq (Nat.ne_of_lt hs.1), hs.2]⟩
  · rw [after_removeLink]
    split <;> exact hs

/-- Nothing frees a directory address. -/
theorem stable_nextDir (n b : Nat) : Stable hash (fun s => n ≤ s.nextDir) b := by
  refine ⟨fun _ _ _ _ _ hs => hs, fun d s hs => ?_, fun _ _ hs => hs, fun _ _ hs => hs,
    fun a _ name s hs => ?_, fun _ _ _ _ _ hs => hs⟩
  · simp [after]; omega
  · rw [after_removeLink]
    split <;> exact hs

variable {s : Heap} {a x : Nat} {name : String}

theorem closeParent_dirs (hax : a ≤ x) (hx : x < s.nextDir) :
    (after (Directory.closeParent hash a) s).dirs x = s.dirs x :=
  ((stable_dir x (s.dirs x)).closeParent hax s ⟨hx, rfl⟩).2

theorem closeChild_dirs (hax : a < x) (hx : x < s.nextDir) :
    (after (Directory.closeChild hash a name) s).dirs x = s.dirs x :=
  ((stable_dir x (s.dirs x)).closeChild hax name s ⟨hx, rfl⟩).2

theorem closeChild_files (hx : x < s.nextFile) :
    (after (Directory.closeChild hash a name) s).files x = s.files x :=
  ((stable_file x (s.files x) (a + 1)).closeChild (Nat.lt_succ_self a) name s ⟨hx, rfl⟩).2

theorem closeParent_sink (h : (s.dirs a).parent = .sink) :
    Directory.closeParent hash a s = .ok () s := by
  rw [Directory.closeParent]
  simp [h]

theorem closeParent_dir {p : Nat} (h : (s.dirs a).parent = .dir p) (hp : p < a) :
    Directory.closeParent hash a s = Directory.closeChild hash p (s.dirs a).name s := by
  rw [Directory.closeParent]
  simp [h, hp]

variable (hash) in
/-- The heap once `closeChild` at `p` has stored `nd` and linked it under `name`. -/
def Heap.relink (s : Heap) (p : Nat) (name : String) (nd : Node) : Heap :=
  { s with
    dirs := Function.update s.dirs p
      { s.dirs p with node := (s.dirs p).node.addNodeLinkClean hash name nd }
    dserv := s.dserv.insert nd }

@[simp] theorem Heap.relink_nextDir {p : Nat} (nd : Node) :
    (s.relink hash p name nd).nextDir = s.nextDir :=
  rfl

@[simp] theorem Heap.relink_self {p : Nat} (nd : Node) :
    (s.relink hash p name nd).dirs p =
      { s.dirs p with node := (s.dirs p).node.addNodeLinkClean hash name nd } :=
  Function.update_same _ _ _

theorem Heap.relink_ne {p : Nat} (nd : Node) {b : Nat} (hb : b ≠ p) :
    (s.relink hash p name nd).dirs b = s.dirs b :=
  Function.update_noteq hb _ _

/-- The removal of the name, which fails only for want of a link, and the clean insert. -/
theorem relink_apply {β : Type} (a : Nat) (name : String) (nd : Node) (k : M β) (s : Heap) :
    (ignoring .notFound (removeLink a name) >>= fun _ => addLink hash a name nd >>= fun _ => k) s =
      k { s with
        dirs := Function.update s.dirs a
          { s.dirs a with node := (s.dirs a).node.addNodeLinkClean hash name nd } } := by
  cases hr : (s.dirs a).node.removeNodeLink name with
  | ok n' =>
    simp [ignoring, removeLink, hr, addLink, Node.addNodeLinkClean_of_removeNodeLink hash hr]
  | error e =>
    obtain rfl := Node.removeNodeLink_error hr
    simp [ignoring, removeLink, hr, addLink]

/-- `closeChild` once `Child` has returned `c`: `Add`'s error, or the relink and the walk up. -/
theorem closeChild_of_child {c : FSNode} {s₁ : Heap} (hc : Directory.child hash a name s = .ok c s₁) :
    Directory.closeChild hash a name s =
      match s₁.dserv.addError s₁.dserv.blocks (s₁.nodeOf c) with
      | some e => .error e s₁
      | none => Directory.closeParent hash a (s₁.relink hash a name (s₁.nodeOf c)) := by
  rw [Directory.closeChild, bind_apply, hc]
  dsimp only
  rw [bind_apply, Directory.getNode_apply]
  dsimp only
  cases he : s₁.dserv.addError s₁.dserv.blocks (s₁.nodeOf c) with
  | some e => rw [bind_apply, store_of_refused hash he]
  | none => rw [bind_apply, store_of_accepted hash he]; exact relink_apply a name _ _ _

theorem closeChild_of_accepts {c : FSNode} {s₁ : Heap}
    (hc : Directory.child hash a name s = .ok c s₁) (hadd : s₁.dserv.Accepts) :
    Directory.closeChild hash a name s =
      Directory.closeParent hash a (s₁.relink hash a name (s₁.nodeOf c)) := by
  rw [closeChild_of_child hc, hadd]

/-- A `closeParent` that returns has closed the directory into its lower parent. -/
theorem closeParent_ok {s' : Heap} {p : Nat} (hpar : (s.dirs a).parent = .dir p)
    (h : Directory.closeParent hash a s = .ok () s') :
    p < a ∧ Directory.closeChild hash p (s.dirs a).name s = .ok () s' := by
  rw [Directory.closeParent] at h
  simp only [bind_apply, getDir_apply, hpar] at h
  split at h
  · exact ⟨‹_›, h⟩
  · cases h

/-- A returning `closeChild` leaves the other names' links in order, then the name's one link. -/
theorem closeChild_links {s' : Heap} (ha : a < s.nextDir)
    (h : Directory.closeChild hash a name s = .ok () s') :
    ∃ c s₁, Directory.child hash a name s = .ok c s₁ ∧
      (s'.dirs a).node.links =
        (s₁.dirs a).node.links.filter (·.name ≠ name) ++ [⟨name, hash (s₁.nodeOf c)⟩] := by
  rw [Directory.closeChild] at h
  obtain ⟨c, s₁, hc, h₁⟩ := bind_eq_ok h
  obtain ⟨nd, s₂, hn, h₂⟩ := bind_eq_ok h₁
  obtain ⟨_, s₃, hst, h₃⟩ := bind_eq_ok h₂
  obtain ⟨_, s₄, hrm, h₄⟩ := bind_eq_ok h₃
  obtain ⟨_, s₅, hadd, hcl⟩ := bind_eq_ok h₄
  rw [Directory.getNode_apply] at hn
  cases hn
  obtain ⟨-, rfl⟩ := store_eq_ok hash hst
  have hP : Stable hash (fun s => a + 1 ≤ s.nextDir) (a + 1) := stable_nextDir (a + 1) (a + 1)
  have h₅ : a < s₅.nextDir :=
    (hP.addLink a (by omega) _ _).of_ok hadd <|
      (Preserves.ignoring _ (hP.removeLink a (by omega) _)).of_ok hrm <|
        (hP.store _).of_ok hst <| (hP.child (by omega) _).of_ok hc ha
  have hkeep : (s₄.dirs a).node.links.filter (·.name ≠ name) =
      (s₁.dirs a).node.links.filter (·.name ≠ name) := by
    cases hr : (s₁.dirs a).node.removeNodeLink name with
    | ok n =>
      simp only [ignoring, removeLink, hr, modifyDir_apply] at hrm
      cases hrm
      simpa using Node.filter_removeNodeLink hr
    | error e =>
      simp only [ignoring, removeLink, hr] at hrm
      split_ifs at hrm
      cases hrm
      rfl
  refine ⟨c, s₁, hc, ?_⟩
  rw [← after_of_ok hcl, closeParent_dirs le_rfl h₅]
  cases hadd
  simpa [Node.addNodeLinkClean] using hkeep

/-- A returning `closeChild` leaves one link of the name, to the node its lookup found. -/
theorem closeChild_ok {s' : Heap} (ha : a < s.nextDir)
    (h : Directory.closeChild hash a name s = .ok () s') :
    ∃ c s₁, Directory.child hash a name s = .ok c s₁ ∧
      (s'.dirs a).node.links.filter (·.name = name) = [⟨name, hash (s₁.nodeOf c)⟩] := by
  obtain ⟨c, s₁, hc, hl⟩ := closeChild_links ha h
  exact ⟨c, s₁, hc, by simp [hl, List.filter_append, List.filter_filter]⟩

end Frame

/-! ## Runs -/

/-- A call of the directory API, on the directory at an address. -/
inductive Call where
  | «open» (a : Nat) (tpath : List String) (mode : Nat)
  | mkdir (a : Nat) (name : String)
  | unlink (a : Nat) (name : String)
  | renameEntry (a : Nat) (oldname newname : String)
  | addChild (a : Nat) (name : String) (nd : Node)
  | child (a : Nat) (name : String)
  | closeChild (a : Nat) (name : String)

/-- The program of a call, its result dropped. -/
def Call.run : Call → M Unit
  | .open a tpath mode => Directory.open hash a tpath mode >>= fun _ => pure ()
  | .mkdir a name => Directory.mkdir hash a name >>= fun _ => pure ()
  | .unlink a name => Directory.unlink hash a name
  | .renameEntry a oldname newname => Directory.renameEntry hash a oldname newname
  | .addChild a name nd => Directory.addChild hash a name nd
  | .child a name => Directory.child hash a name >>= fun _ => pure ()
  | .closeChild a name => Directory.closeChild hash a name

/-- The state a sequence of calls leaves, whether each returned or failed. -/
def runCalls (s : Heap) (calls : List Call) : Heap :=
  calls.foldl (fun s c => after (c.run hash) s) s

variable {hash}

/-- An invariant that every bound makes stable and renaming keeps is kept by every call. -/
theorem Stable.call {P : Heap → Prop} (hP : ∀ b, Stable hash P b)
    (hr : ∀ x n, Preserves P (modifyDir x fun d => { d with name := n }))
    (hf : ∀ x n, Preserves P (modifyFile x fun f => { f with name := n })) :
    ∀ c : Call, Preserves P (c.run hash)
  | .open a tpath mode => .bind (Stable.open hash hP a tpath mode) fun _ => .pure ()
  | .mkdir a name => .bind ((hP (a + 1)).mkdir (Nat.lt_succ_self a) name) fun _ => .pure ()
  | .unlink a name => (hP (a + 1)).unlink (Nat.lt_succ_self a) name
  | .renameEntry a o n => (hP (a + 1)).renameEntry hr hf (Nat.lt_succ_self a) o n
  | .addChild a name nd => (hP (a + 1)).addChild (Nat.lt_succ_self a) name nd
  | .child a name => .bind ((hP (a + 1)).child (Nat.lt_succ_self a) name) fun _ => .pure ()
  | .closeChild a name => (hP (a + 1)).closeChild (Nat.lt_succ_self a) name

/-- The run lemma: what every call keeps holds after every sequence of calls. -/
theorem runCalls_of_preserves {P : Heap → Prop} (h : ∀ c : Call, Preserves P (c.run hash))
    {s : Heap} (hs : P s) (calls : List Call) : P (runCalls hash s calls) := by
  induction calls generalizing s with
  | nil => exact hs
  | cons c calls ih => exact ih (h c s hs)

/-- No primitive changes what `Add` refuses. -/
theorem stable_accepts (b : Nat) : Stable hash (fun s => s.dserv.Accepts) b := by
  refine ⟨fun _ _ _ _ _ hs => hs, fun _ _ hs => hs, fun _ _ hs => hs, fun _ _ hs => hs,
    fun a _ name s hs => ?_, fun _ _ _ _ _ hs => hs⟩
  rw [after_removeLink]
  split <;> exact hs

variable (hash) in
theorem accepts_runCalls {s : Heap} (hs : s.dserv.Accepts) (calls : List Call) :
    (runCalls hash s calls).dserv.Accepts :=
  runCalls_of_preserves (Stable.call stable_accepts (fun _ _ _ hs => hs) fun _ _ _ hs => hs) hs
    calls

end Ipnsfs

end GoIpfs
