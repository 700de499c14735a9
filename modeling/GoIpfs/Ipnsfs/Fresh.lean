import GoIpfs.Ipnsfs.Runs

/-!
# The links stay fresh

The caches and the links agree when every directory cached under a name is linked under that name,
first of its links of the name, by the hash of its current node, which the DAG service holds
(`Fresh`). A mutation leaves only the link to the changed directory stale (`StaleUp`), and the
walk up relinks it step by step to the root (`fresh_close`). Every call keeps the links fresh
(`fresh_call`) but those `Call.Safe` rules out: an `AddChild` that panics after linking or caches
an unstored folder, and a file's `RenameEntry` onto a cached directory's name, whose rename the
next walk up undoes (`renameEntry_file_onto_dir`). So over every safe run from a root the caches
agree with the links (`links_fresh_runCalls`) and with the DAG (`resolve_reached_runCalls`).
-/

namespace GoIpfs

namespace Ipnsfs

variable (hash : Node → Key)

/-- The first link of `name` in `p` has the hash of the node of `x`, which the service holds. -/
abbrev LinksTo (s : Heap) (p : Nat) (name : String) (x : Nat) : Prop :=
  (s.dirs p).node.links.find? (·.name = name) = some ⟨name, hash (s.dirs x).node⟩ ∧
    (s.dirs x).node ∈ s.dserv.blocks

/-- Every directory cached under a name is linked by it, but for the links `ex` exempts. -/
def FreshBut (ex : Nat → String → Prop) (s : Heap) : Prop :=
  ∀ p < s.nextDir, ∀ name x, (s.dirs p).childDirs name = some x → ¬ ex p name →
    LinksTo hash s p name x

/-- Every link of a cached directory is fresh. -/
def Fresh (s : Heap) : Prop := FreshBut hash (fun _ _ => False) s

/-- The link in its parent of the directory at `a`, which a change of `a`'s node makes stale. -/
def UpLink (s : Heap) (a q : Nat) (m : String) : Prop :=
  (s.dirs a).parent = .dir q ∧ m = (s.dirs a).name

/-- A tree with `a` allocated, its links fresh, over an `Add` that never fails. -/
def FreshAt (a : Nat) (s : Heap) : Prop := TreeAt a s ∧ Fresh hash s ∧ s.dserv.Accepts

/-- As `FreshAt`, but the link to `a` in its parent may be stale. -/
def StaleUp (a : Nat) (t : Heap) : Prop :=
  TreeAt a t ∧ FreshBut hash (UpLink t a) t ∧ t.dserv.Accepts

variable {hash}

/-! ## Frames -/

section Frame

variable {ex : Nat → String → Prop} {s t : Heap} {a : Nat}

/-- A link stays fresh while neither node changes and the DAG service keeps its nodes. -/
theorem LinksTo.of_eq {p x : Nat} {name : String} (h : LinksTo hash s p name x)
    (hp : (t.dirs p).node = (s.dirs p).node) (hx : (t.dirs x).node = (s.dirs x).node)
    (hb : s.dserv.blocks ⊆ t.dserv.blocks) : LinksTo hash t p name x :=
  ⟨by rw [hp, hx]; exact h.1, by rw [hx]; exact hb h.2⟩

theorem FreshBut.fresh (hf : FreshBut hash ex s)
    (hex : ∀ p < s.nextDir, ∀ name x, ex p name → (s.dirs p).childDirs name = some x →
      LinksTo hash s p name x) :
    Fresh hash s := by
  intro p hp name x h _
  by_cases he : ex p name
  · exact hex p hp name x he h
  · exact hf p hp name x h he

theorem FreshBut.mono {ex' : Nat → String → Prop} (hf : FreshBut hash ex s)
    (h : ∀ q m, ex q m → ex' q m) : FreshBut hash ex' s :=
  fun p hp name x hx hne => hf p hp name x hx fun he => hne (h p name he)

/-- Storing a node keeps the links fresh. -/
theorem FreshBut.insert (hf : FreshBut hash ex s) (nd : Node) :
    FreshBut hash ex { s with dserv := s.dserv.insert nd } :=
  fun p hp m y h hex => (hf p hp m y h hex).of_eq rfl rfl (List.subset_cons_self _ _)

theorem FreshBut.setCache (hf : FreshBut hash ex s) (k : Kind) (name : String) (o : Option Nat)
    (ho : k = .dir → ∀ x, o = some x → ¬ ex a name → LinksTo hash s a name x) :
    FreshBut hash ex
      { s with dirs := Function.update s.dirs a ((s.dirs a).setCache k name o) } := by
  have hnode (y : Nat) :
      (Function.update s.dirs a ((s.dirs a).setCache k name o) y).node = (s.dirs y).node := by
    by_cases hy : y = a
    · subst hy; simp
    · simp [Function.update_noteq hy]
  intro p hp m y h hex
  refine LinksTo.of_eq ?_ (hnode p) (hnode y) (List.Subset.refl _)
  by_cases hpa : p = a
  · subst hpa
    simp only [Function.update_same] at h
    rcases cache_setCache_eq_some (show ((s.dirs p).setCache k name o).cache .dir m = some y
      from h) with ⟨hk, rfl, ho'⟩ | ⟨-, h⟩
    · exact ho hk.symm y ho' hex
    · exact hf p hp m y h hex
  · simp only [Function.update_noteq hpa] at h
    exact hf p hp m y h hex

theorem FreshBut.allocDir (hf : FreshBut hash ex s) (hs : Tree s) {d : Directory}
    (hd : ∀ n, d.childDirs n = none) :
    FreshBut hash ex
      { s with dirs := Function.update s.dirs s.nextDir d, nextDir := s.nextDir + 1 } := by
  intro p hp m y h hex
  rcases Nat.lt_succ_iff_lt_or_eq.1 hp with hp | rfl
  · simp only [Function.update_noteq (Nat.ne_of_lt hp)] at h
    have hy := (hs.cache p hp .dir m y h).1
    exact (hf p hp m y h hex).of_eq (by simp [Function.update_noteq (Nat.ne_of_lt hp)])
      (by simp [Function.update_noteq (Nat.ne_of_lt hy)]) (List.Subset.refl _)
  · simp [hd] at h

/-- A change of `a` alone keeps every link fresh but the one to `a` in its parent. -/
theorem FreshBut.update (hf : FreshBut hash ex s) (ht : TreeAt a t)
    (hex : ∀ q m, ex q m → q = a) (hn : t.nextDir = s.nextDir)
    (hother : ∀ b ≠ a, (t.dirs b).node = (s.dirs b).node ∧
      (t.dirs b).childDirs = (s.dirs b).childDirs)
    (hb : s.dserv.blocks ⊆ t.dserv.blocks)
    (hat : ∀ m y, (t.dirs a).childDirs m = some y →
      (t.dirs a).node.links.find? (·.name = m) = some ⟨m, hash (s.dirs y).node⟩ ∧
        (s.dirs y).node ∈ t.dserv.blocks) :
    FreshBut hash (UpLink t a) t := by
  intro p hp m y h hup
  obtain ⟨-, hyp, hym⟩ := ht.1.cache p hp .dir m y h
  have hy : y ≠ a := by
    rintro rfl
    exact hup ⟨hyp, hym.symm⟩
  by_cases hpa : p = a
  · subst hpa
    obtain ⟨hl, hm⟩ := hat m y h
    rw [← (hother y hy).1] at hl hm
    exact ⟨hl, hm⟩
  · rw [(hother p hpa).2] at h
    exact (hf p (hn ▸ hp) m y h fun he => hpa (hex p m he)).of_eq (hother p hpa).1
      (hother y hy).1 hb

/-- Dropping entries of the caches keeps the links fresh. -/
theorem FreshBut.restrict (hf : FreshBut hash ex s) (hn : t.nextDir = s.nextDir)
    (hnode : ∀ b, (t.dirs b).node = (s.dirs b).node)
    (hc : ∀ p m y, (t.dirs p).childDirs m = some y → (s.dirs p).childDirs m = some y)
    (hb : s.dserv.blocks ⊆ t.dserv.blocks) : FreshBut hash ex t :=
  fun p hp m y h hex => (hf p (hn ▸ hp) m y (hc p m y h) hex).of_eq (hnode p) (hnode y) hb

/-- Caching a new overlay keeps the links fresh when a new directory's node is stored. -/
theorem FreshBut.make_cache (hf : FreshBut hash ex s) (hs : TreeAt a s) (k : Kind)
    (name : String) (nd : Node)
    (hfind : k = .dir → (s.dirs a).node.links.find? (·.name = name) = some ⟨name, hash nd⟩ ∧
      nd ∈ s.dserv.blocks) :
    FreshBut hash ex
      (after (k.make name nd a >>= fun x => modifyDir a (·.setCache k name (some x))) s) := by
  cases k
  · rw [after_bind]
    simp only [Kind.make, newDirectory, allocDir_apply, after, modifyDir_apply]
    refine (hf.allocDir hs.1 fun _ => rfl).setCache .dir name _ fun _ x hx _ => ?_
    cases hx
    obtain ⟨hl, hm⟩ := hfind rfl
    exact ⟨by simpa [Function.update_noteq (Nat.ne_of_lt hs.2)] using hl, by simpa using hm⟩
  · rw [after_bind]
    simp only [Kind.make, newFile, allocFile_apply, after, modifyDir_apply]
    refine FreshBut.setCache (s := { s with
      files := Function.update s.files s.nextFile ⟨a, nd, name⟩, nextFile := s.nextFile + 1 })
      ?_ .file name _ fun h => by cases h
    exact hf.restrict rfl (fun _ => rfl) (fun _ _ _ h => h) (List.Subset.refl _)

end Frame

/-! ## Lookups -/

section Lookup

variable {ex : Nat → String → Prop} {a : Nat}

theorem fresh_lookupChild (k : Kind) (other : Error) (name : String) :
    Preserves (fun s => TreeAt a s ∧ FreshBut hash ex s ∧ s.dserv.Accepts)
      (Directory.lookupChild hash k other a name) := by
  intro s ⟨hs, hf, hadd⟩
  refine ⟨treeAt_lookupChild hash k other name s hs, ?_,
    (stable_accepts (a + 1)).lookupChild a.lt_succ_self k other name s hadd⟩
  cases hc : (s.dirs a).cache k name with
  | some x => rwa [after_of_ok (Directory.lookupChild_cached hc)]
  | none =>
    cases hl : (s.dirs a).node.links.find? (·.name = name) with
    | none => rwa [after_of_error (Directory.lookupChild_noLink hc hl)]
    | some lnk =>
      cases hg : s.dserv.get hash lnk.hash with
      | error => rwa [after_of_error (Directory.lookupChild_getError hc hl hg)]
      | ok nd =>
        cases hi : nd.data.unmarshal with
        | error => rwa [after_of_error (Directory.lookupChild_decodeError hc hl hg hi)]
        | ok i =>
          have hname : lnk.name = name := by simpa using List.find?_some hl
          have hlnk : lnk = ⟨name, hash nd⟩ := by
            rw [DAGService.hash_of_get hash hg, ← hname]
          simp only [after, Directory.lookupChild_link hc hl hg hi]
          unfold Directory.newChild
          split_ifs
          · have := hf.make_cache hs k name nd fun _ =>
              ⟨hlnk ▸ hl, DAGService.mem_of_get hash hg⟩
            cases k <;> exact this
          all_goals exact hf

theorem fresh_child (name : String) :
    Preserves (fun s => TreeAt a s ∧ FreshBut hash ex s ∧ s.dserv.Accepts)
      (Directory.child hash a name) := by
  unfold Directory.child
  refine .bind (fresh_lookupChild _ _ _).attempt fun o => ?_
  split
  · exact .pure _
  · refine .bind (fresh_lookupChild _ _ _).attempt fun o => ?_
    split
    · exact .pure _
    · exact .throw _

end Lookup

/-! ## What `Child` finds -/

section Child

variable {s s' : Heap} {a : Nat} {name : String}

/-- A file lookup leaves the directory caches alone. -/
theorem childDirs_lookupChild_file {other : Error} {f : Nat}
    (h : Directory.lookupChild hash .file other a name s = .ok f s') :
    (s'.dirs a).childDirs = (s.dirs a).childDirs := by
  cases hc : (s.dirs a).cache .file name with
  | some y => rw [Directory.lookupChild_cached hc] at h; cases h; rfl
  | none =>
    cases hl : (s.dirs a).node.links.find? (·.name = name) with
    | none => rw [Directory.lookupChild_noLink hc hl] at h; cases h
    | some lnk =>
      cases hg : s.dserv.get hash lnk.hash with
      | error => rw [Directory.lookupChild_getError hc hl hg] at h; cases h
      | ok nd =>
        cases hi : nd.data.unmarshal with
        | error => rw [Directory.lookupChild_decodeError hc hl hg hi] at h; cases h
        | ok i =>
          rw [Directory.lookupChild_link hc hl hg hi] at h
          unfold Directory.newChild at h
          split_ifs at h
          · simp only [Kind.make, newFile, bind_apply, allocFile_apply, modifyDir_apply,
              pure_apply, EStateM.Result.ok.injEq] at h
            obtain ⟨rfl, rfl⟩ := h
            simp [Directory.setCache]
          all_goals cases h

/-- A directory lookup that fails found no directory cached under the name. -/
theorem childDirs_of_lookupChild_error {other e : Error}
    (h : Directory.lookupChild hash .dir other a name s = .error e s') :
    (s.dirs a).childDirs name = none := by
  cases hc : (s.dirs a).childDirs name with
  | none => rfl
  | some y => rw [Directory.lookupChild_cached (k := .dir) hc] at h; cases h

/-- `Child` returns the directory cached under the name, or else a file. -/
theorem child_eq_ok {c : FSNode} (h : Directory.child hash a name s = .ok c s') :
    (∃ x, c = .dir x ∧ (s'.dirs a).childDirs name = some x) ∨
      (∃ f, c = .file f ∧ (s'.dirs a).childDirs name = none) := by
  unfold Directory.child at h
  obtain ⟨o, s₁, ho, h₁⟩ := bind_eq_ok h
  rcases attempt_eq_ok ho with ⟨x, rfl, hx⟩ | ⟨rfl, e, -, he⟩
  · cases h₁
    exact .inl ⟨x, rfl, lookupChild_cache hash hx⟩
  · have hs₁ : s₁ = s := Directory.lookupChild_error he
    have hnone : (s.dirs a).childDirs name = none := childDirs_of_lookupChild_error he
    obtain ⟨o, s₂, ho, h₂⟩ := bind_eq_ok h₁
    rcases attempt_eq_ok ho with ⟨f, rfl, hf⟩ | ⟨rfl, -⟩
    · cases h₂
      exact .inr ⟨f, rfl, by rw [childDirs_lookupChild_file hf, hs₁, hnone]⟩
    · cases h₂

/-- A `Child` that fails found no directory cached under the name. -/
theorem childDirs_of_child_error {e : Error} (h : Directory.child hash a name s = .error e s') :
    (s.dirs a).childDirs name = none := by
  cases hc : (s.dirs a).childDirs name with
  | none => rfl
  | some x => rw [Directory.child_cachedDir hc] at h; cases h

/-- A `Child` that fails has changed nothing. -/
theorem child_error {e : Error} (h : Directory.child hash a name s = .error e s') : s' = s := by
  cases hd : Directory.childDir hash a name s with
  | ok x s₁ => rw [Directory.child_of_childDir hd] at h; cases h
  | error e₁ s₁ =>
    obtain rfl := Directory.lookupChild_error hd
    cases hp₁ : e₁.isPanic
    · cases hf : Directory.childFile hash a name s₁ with
      | ok f s₂ => rw [Directory.child_of_childFile hd hp₁ hf] at h; cases h
      | error e₂ s₂ =>
        obtain rfl := Directory.lookupChild_error hf
        cases hp₂ : e₂.isPanic <;>
          simp only [Directory.child, bind_apply, attempt_of_error hd hp₁, attempt_of_error hf,
            attempt_of_panic hf, hp₂] at h <;>
          exact (EStateM.Result.error.inj h).2.symm
    · simp only [Directory.child, bind_apply, attempt_of_panic hd hp₁] at h
      cases h
      rfl

end Child

/-! ## The walk up -/

section Walk

variable (hash)

/-- The walk up mends the one stale link it starts from, when `Add` never fails. -/
theorem fresh_close (a : Nat) :
    (∀ name s, TreeAt a s → FreshBut hash (fun q m => q = a ∧ m = name) s → s.dserv.Accepts →
      Fresh hash (after (Directory.closeChild hash a name) s)) ∧
    (∀ s, TreeAt a s → FreshBut hash (UpLink s a) s → s.dserv.Accepts →
      Fresh hash (after (Directory.closeParent hash a) s)) := by
  induction a using Nat.strong_induction_on with
  | _ a ih =>
    have parent : ∀ s, TreeAt a s → FreshBut hash (UpLink s a) s → s.dserv.Accepts →
        Fresh hash (after (Directory.closeParent hash a) s) := by
      intro s hs hf hadd
      cases hpar : (s.dirs a).parent with
      | sink =>
        rw [after_of_ok (closeParent_sink hpar)]
        exact hf.mono fun q m he => by cases hpar.symm.trans he.1
      | dir p =>
        have hp : p < a := hs.1.parent_lt a hs.2 p hpar
        unfold after
        rw [closeParent_dir hpar hp]
        exact (ih p hp).1 _ s ⟨hs.1, hp.trans hs.2⟩ (hf.mono fun q m he => by
          rw [UpLink, hpar, Parent.dir.injEq] at he
          exact ⟨he.1.symm, he.2⟩) hadd
    refine ⟨fun name s hs hf hadd => ?_, parent⟩
    cases hc : Directory.child hash a name s with
    | error e s₁ =>
      obtain rfl : s = s₁ := (child_error hc).symm
      rw [after_of_error (show Directory.closeChild hash a name s = .error e s by
        rw [Directory.closeChild, bind_apply, hc])]
      refine hf.fresh fun q _ m x he h => ?_
      obtain ⟨rfl, rfl⟩ := he
      rw [childDirs_of_child_error hc] at h
      cases h
    | ok c s₁ =>
      obtain ⟨hs₁, hf₁, hadd₁⟩ := after_of_ok hc ▸ fresh_child name s ⟨hs, hf, hadd⟩
      have ht : TreeAt a (s₁.relink hash a name (s₁.nodeOf c)) :=
        treeAt_addLink hash name _ { s₁ with dserv := s₁.dserv.insert (s₁.nodeOf c) }
          ⟨⟨hs₁.1.1, hs₁.1.2, hs₁.1.3, hs₁.1.4⟩, hs₁.2⟩
      unfold after
      rw [closeChild_of_accepts hc hadd₁]
      refine parent _ ht ((hf₁.insert (s₁.nodeOf c)).update ht (fun q m he => he.1) rfl
        (fun b hb => by simp [Heap.relink, Function.update_noteq hb]) (List.Subset.refl _)
        fun m y hy => ?_) (hadd₁.insert _)
      simp only [Heap.relink_self] at hy ⊢
      by_cases hm : m = name
      · subst hm
        rw [Node.find?_addNodeLinkClean_self]
        rcases child_eq_ok hc with ⟨x, rfl, hx⟩ | ⟨f, rfl, hx⟩ <;> rw [hx] at hy <;> cases hy
        exact ⟨rfl, List.mem_cons_self _ _⟩
      · rw [Node.find?_addNodeLinkClean_ne _ _ _ hm]
        have hl := hf₁ a hs₁.2 m y hy fun he => hm he.2
        exact ⟨hl.1, List.mem_cons_of_mem _ hl.2⟩

end Walk

/-! ## The methods -/

section Methods

variable (hash) {a : Nat} {s t : Heap}

/-- The walk up from `a` mends the link to `a`. -/
theorem fresh_closeParent (ht : StaleUp hash a t) :
    FreshAt hash a (after (Directory.closeParent hash a) t) :=
  ⟨(treeAt_close hash a).2 t ht.1, (fresh_close hash a).2 t ht.1 ht.2.1 ht.2.2,
    (stable_accepts a).closeParent le_rfl t ht.2.2⟩

theorem eq_some_of_update_none {f : String → Option Nat} {n m : String} {y : Nat}
    (h : Function.update f n none m = some y) : m ≠ n ∧ f m = some y := by
  by_cases hm : m = n
  · subst hm; simp at h
  · exact ⟨hm, by simpa [Function.update_noteq hm] using h⟩

theorem after_addLink_bind {name : String} {nd : Node} (f : Unit → M β) :
    after (addLink hash a name nd >>= f) s = after (f ()) (after (addLink hash a name nd) s) :=
  rfl

/-- Linking a name under which no directory is cached leaves only the link to `a` stale. -/
theorem staleUp_addLink {name : String} (hs : FreshAt hash a s)
    (hd : (s.dirs a).childDirs name = none) (nd : Node) :
    StaleUp hash a (after (addLink hash a name nd) s) := by
  have ht := treeAt_addLink hash name nd s hs.1
  refine ⟨ht, hs.2.1.update ht (fun _ _ h => h.elim) rfl
    (fun b hb => by simp [after, addLink, Function.update_noteq hb]) (List.Subset.refl _)
    fun m y hy => ?_, hs.2.2⟩
  simp only [after, addLink, modifyDir_apply, Function.update_same] at hy ⊢
  have hm : m ≠ name := by rintro rfl; rw [hd] at hy; cases hy
  rw [Node.find?_addNodeLinkClean_ne _ _ _ hm]
  exact hs.2.1 a hs.1.2 m y hy id

/-- Making an overlay and caching it keeps what the link to `a` in its parent is. -/
theorem upLink_make_cache (ha : a < t.nextDir) (k : Kind) (name : String) (nd : Node) :
    UpLink (after (k.make name nd a >>= fun x => modifyDir a (·.setCache k name (some x))) t) a =
      UpLink t a := by
  funext q m
  cases k <;> simp [UpLink, Kind.make, newDirectory, newFile, after,
    Function.update_noteq (Nat.ne_of_lt ha)]

/-- Caching an overlay of the linked node keeps the link to `a` the only stale one. -/
theorem staleUp_make_cache (ht : StaleUp hash a t) (k : Kind) (name : String) (nd : Node)
    (hfind : k = .dir → (t.dirs a).node.links.find? (·.name = name) = some ⟨name, hash nd⟩ ∧
      nd ∈ t.dserv.blocks) :
    StaleUp hash a
      (after (k.make name nd a >>= fun x => modifyDir a (·.setCache k name (some x))) t) := by
  have hn (hk : k = .dir) : name ∈ (t.dirs a).node.names :=
    List.mem_map.2 ⟨_, List.mem_of_find?_eq_some (hfind hk).1, rfl⟩
  have htree := ht.1.make_cache k name nd hn (fun _ => pure ()) fun _ => .pure _
  refine ⟨by cases k <;> exact htree, ?_, by cases k <;> exact ht.2.2⟩
  rw [upLink_make_cache ht.1.2]
  exact ht.2.1.make_cache ht.1 k name nd hfind

theorem fresh_closeChild (name : String) :
    Preserves (FreshAt hash a) (Directory.closeChild hash a name) :=
  fun s hs => ⟨(treeAt_close hash a).1 name s hs.1,
    (fresh_close hash a).1 name s hs.1 (hs.2.1.mono fun _ _ h => h.elim) hs.2.2,
    (stable_accepts (a + 1)).closeChild a.lt_succ_self name s hs.2.2⟩

theorem fresh_mkdir (name : String) :
    Preserves (FreshAt hash a) (Directory.mkdir hash a name) := by
  intro s hs
  unfold Directory.mkdir
  refine after_bind_of_ok (P := FreshAt hash a) ((fresh_lookupChild _ _ _).attempt s hs)
    fun o s₁ h₁ hs₁ => ?_
  rcases attempt_eq_ok h₁ with ⟨x, rfl, -⟩ | ⟨rfl, e, -, he⟩
  · exact Preserves.throw_bind _ _ _ hs₁
  obtain rfl : s = s₁ := (Directory.lookupChild_error he).symm
  simp only [Option.isSome_none, Bool.false_eq_true, if_false]
  rw [after_bind, pure_apply]
  dsimp only
  refine after_bind_of_ok (P := FreshAt hash a) ((fresh_lookupChild _ _ _).attempt s hs)
    fun o s₂ h₂ hs₂ => ?_
  rcases attempt_eq_ok h₂ with ⟨x, rfl, -⟩ | ⟨rfl, e', -, hf⟩
  · exact Preserves.throw_bind _ _ _ hs₂
  obtain rfl : s = s₂ := (Directory.lookupChild_error hf).symm
  simp only [Option.isSome_none, Bool.false_eq_true, if_false]
  rw [after_bind, pure_apply]
  dsimp only
  rw [after_addLink_bind]
  exact after_bind_of_ok (P := FreshAt hash a)
    (fresh_closeParent hash (staleUp_addLink hash hs (childDirs_of_lookupChild_error he) _))
    fun _ _ _ h => fresh_lookupChild _ _ _ _ h

theorem fresh_unlink (name : String) :
    Preserves (FreshAt hash a) (Directory.unlink hash a name) := by
  intro s hs
  rw [Directory.unlink, after_bind, modifyDir_apply]
  dsimp only
  -- the caches cleared of the name
  let d := ((s.dirs a).setCache .dir name none).setCache .file name none
  have hc {p m y} (h : (Function.update s.dirs a d p).childDirs m = some y) :
      (s.dirs p).childDirs m = some y := by
    by_cases hpa : p = a
    · subst hpa; exact (eq_some_of_update_none (by simpa using h)).2
    · simpa [Function.update_noteq hpa] using h
  have ht₁ : TreeAt a { s with dirs := Function.update s.dirs a d } :=
    ⟨hs.1.1.clearCaches hs.1.2 name, hs.1.2⟩
  rw [after_bind]
  cases hr : (s.dirs a).node.removeNodeLink name with
  | error e =>
    simp only [removeLink, Function.update_same, Directory.node_setCache, hr, d]
    refine ⟨ht₁, hs.2.1.restrict rfl (fun b => ?_) (fun p m y h => hc h) (List.Subset.refl _),
      hs.2.2⟩
    by_cases hb : b = a
    · subst hb; simp
    · simp [Function.update_noteq hb]
  | ok n' =>
    have ht : TreeAt a (after (removeLink a name) { s with dirs := Function.update s.dirs a d }) :=
      ht₁.removeLink (by simp [d, Directory.setCache])
    rw [after_removeLink] at ht
    simp only [Function.update_same, d, Directory.node_setCache, hr, after, modifyDir_apply,
      Function.update_idem] at ht
    simp only [removeLink, Function.update_same, Directory.node_setCache, hr, modifyDir_apply,
      Function.update_idem]
    refine fresh_closeParent hash ⟨ht, hs.2.1.update ht (fun _ _ h => h.elim) rfl
      (fun b hb => by simp [after, Function.update_noteq hb]) (List.Subset.refl _)
      fun m y hy => ?_, hs.2.2⟩
    simp only [Function.update_same] at hy ⊢
    obtain ⟨hm, hy⟩ := eq_some_of_update_none hy
    rw [Node.find?_removeNodeLink_ne hr hm]
    exact hs.2.1 a hs.1.2 m y hy id

/-- `AddChild` of a handled type keeps the links fresh when the folder it caches is stored. -/
theorem fresh_addChild (name : String) (nd : Node) (hs : FreshAt hash a s)
    (hty : ∀ i, nd.data.unmarshal = .ok i →
      (∀ c, i.type ≠ .other c) ∧ (i.type = .directory → nd ∈ s.dserv.blocks)) :
    FreshAt hash a (after (Directory.addChild hash a name nd) s) := by
  unfold Directory.addChild
  cases hi : nd.data.unmarshal with
  | error e => exact hs
  | ok i =>
    rw [after_bind, liftExcept_ok]
    dsimp only
    refine after_bind_of_ok (P := FreshAt hash a) ((fresh_child _).attempt s hs)
      fun o s₁ h₁ hs₁ => ?_
    rcases attempt_eq_ok h₁ with ⟨c, rfl, -⟩ | ⟨rfl, e, -, he⟩
    · exact Preserves.throw_bind _ _ _ hs₁
    have hd := childDirs_of_child_error he
    obtain rfl : s = s₁ := (child_error he).symm
    simp only [Option.isSome_none, Bool.false_eq_true, if_false]
    rw [after_bind, pure_apply]
    dsimp only
    rw [after_addLink_bind]
    have ht := staleUp_addLink hash hs hd nd
    have hfind : ((after (addLink hash a name nd) s).dirs a).node.links.find? (·.name = name) =
        some ⟨name, hash nd⟩ := by
      simp [after, addLink, Node.find?_addNodeLinkClean_self]
    cases hty' : i.type with
    | other c => exact absurd hty' ((hty i hi).1 c)
    | directory =>
      exact fresh_closeParent hash
        (staleUp_make_cache hash ht .dir name nd fun _ => ⟨hfind, (hty i hi).2 hty'⟩)
    | _ =>
      exact fresh_closeParent hash (staleUp_make_cache hash ht .file name nd fun h => by cases h)

/-- The directory branch of `RenameEntry` keeps the links fresh. -/
theorem fresh_renameTo_dir {oldname newname : String} {x : Nat} (hs : FreshAt hash a s)
    (hx : (s.dirs a).childDirs oldname = some x) :
    FreshAt hash a (after (Directory.renameTo hash .dir .dir a oldname newname x) s) := by
  obtain ⟨hxn, hxp, -⟩ := hs.1.1.cache a hs.1.2 .dir oldname x hx
  have hxa : x ≠ a := Nat.ne_of_gt (hs.1.1.parent_lt x hxn a hxp)
  obtain ⟨n', hr⟩ := Node.removeNodeLink_of_mem (hs.1.1.linked a hs.1.2 oldname x hx)
  simp only [Directory.renameTo, after_bind, modifyDir_apply, removeLink, hr, addLink,
    Function.update_noteq hxa, Function.update_noteq (Ne.symm hxa), Directory.getNode_apply,
    Kind.fsNode, Heap.nodeOf, Function.update_same, Function.update_idem]
  refine fresh_closeParent hash ⟨hs.1.renamedDir hash hx hr, hs.2.1.update
    (hs.1.renamedDir hash hx hr) (fun _ _ h => h.elim) rfl (fun b hb => ?_) (List.Subset.refl _)
    fun m y hy => ?_, hs.2.2⟩
  · by_cases hbx : b = x
    · subst hbx; simp [Function.update_noteq hb]
    · simp [Function.update_noteq hb, Function.update_noteq hbx]
  · simp only [Function.update_same, Directory.node_setCache] at hy ⊢
    by_cases hm : m = newname
    · subst hm
      obtain rfl : x = y := by simpa [Directory.setCache] using hy
      exact ⟨Node.find?_addNodeLinkClean_self hash _ _ _, (hs.2.1 a hs.1.2 oldname x hx id).2⟩
    · obtain ⟨hmo, hold⟩ := eq_some_of_update_none (m := m)
        (by simpa [Directory.setCache, Function.update_noteq hm] using hy)
      rw [Node.find?_addNodeLinkClean_ne _ _ _ hm, Node.find?_removeNodeLink_ne hr hmo]
      exact hs.2.1 a hs.1.2 m y hold id

/-- The file branch of `RenameEntry` keeps the links fresh if the new name caches no directory. -/
theorem fresh_renameTo_file {oldname newname : String} {x : Nat} (hs : FreshAt hash a s)
    (hx : (s.dirs a).files oldname = some x) (hnew : (s.dirs a).childDirs newname = none) :
    FreshAt hash a (after (Directory.renameTo hash .dir .file a oldname newname x) s) := by
  cases hr : (s.dirs a).node.removeNodeLink oldname with
  | error e =>
    simp only [Directory.renameTo, after_bind, modifyFile_apply, removeLink, hr]
    exact ⟨⟨hs.1.1.modifyFile rfl, hs.1.2⟩,
      hs.2.1.restrict rfl (fun _ => rfl) (fun _ _ _ h => h) (List.Subset.refl _), hs.2.2⟩
  | ok n' =>
    simp only [Directory.renameTo, after_bind, modifyFile_apply, modifyDir_apply, removeLink, hr,
      addLink, Directory.getNode_apply, Kind.fsNode, Heap.nodeOf, Function.update_same,
      Function.update_idem]
    refine fresh_closeParent hash ⟨hs.1.renamedFile hash hx hr, hs.2.1.update
      (hs.1.renamedFile hash hx hr) (fun _ _ h => h.elim) rfl
      (fun b hb => by simp [Function.update_noteq hb]) (List.Subset.refl _) fun m y hy => ?_,
      hs.2.2⟩
    simp only [Function.update_same, Directory.node_setCache] at hy ⊢
    obtain ⟨hmo, hold⟩ := eq_some_of_update_none (m := m) (by simpa [Directory.setCache] using hy)
    have hm : m ≠ newname := by rintro rfl; rw [hnew] at hold; cases hold
    rw [Node.find?_addNodeLinkClean_ne _ _ _ hm, Node.find?_removeNodeLink_ne hr hmo]
    exact hs.2.1 a hs.1.2 m y hold id

/-- `RenameEntry` keeps the links fresh unless it renames a file onto a cached directory. -/
theorem fresh_renameEntry (oldname newname : String) (hs : FreshAt hash a s)
    (hsafe : ∀ e s', Directory.childDir hash a oldname s = .error e s' →
      (s.dirs a).childDirs newname = none) :
    FreshAt hash a (after (Directory.renameEntry hash a oldname newname) s) := by
  unfold Directory.renameEntry
  refine after_bind_of_ok (P := FreshAt hash a) ((fresh_lookupChild _ _ _).attempt s hs)
    fun o s₁ h₁ hs₁ => ?_
  rcases attempt_eq_ok h₁ with ⟨dir, rfl, hd⟩ | ⟨rfl, e, -, he⟩
  · exact fresh_renameTo_dir hash hs₁ (lookupChild_cache hash hd)
  have hnew := hsafe e s₁ he
  obtain rfl : s = s₁ := (Directory.lookupChild_error he).symm
  refine after_bind_of_ok (P := FreshAt hash a) ((fresh_lookupChild _ _ _).attempt s hs)
    fun o s₂ h₂ hs₂ => ?_
  rcases attempt_eq_ok h₂ with ⟨fi, rfl, hf⟩ | ⟨rfl, -⟩
  · exact fresh_renameTo_file hash hs₂ (lookupChild_cache hash hf)
      (by rw [childDirs_lookupChild_file hf]; exact hnew)
  · exact hs₂

theorem fresh_open (a : Nat) (tpath : List String) (mode : Nat) :
    ∀ s, FreshAt hash a s → Fresh hash (after (Directory.open hash a tpath mode) s) := by
  induction a, tpath, mode using Directory.open.induct hash with
  | case1 a mode => exact fun _ hs => hs.2.1
  | case2 a p mode =>
    intro s hs
    rw [Directory.open]
    refine ((Preserves.bind (P := FreshAt hash a) (fresh_lookupChild _ _ _).attempt
      fun o => ?_) s hs).2.1
    split
    · exact .pure _
    · split
      · exact fun s hs => ⟨hs.1.make_cache .file p emptyFileNode (fun h => by cases h) _ .pure,
          hs.2.1.make_cache hs.1 .file p emptyFileNode (fun h => by cases h), hs.2.2⟩
      · exact .throw _
  | case3 a p rest mode hne ih =>
    intro s hs
    rw [Directory.open.eq_3 hash a mode p rest hne]
    refine after_bind_of_ok (P := Fresh hash) (fresh_lookupChild _ _ _ s hs).2.1
      fun dir s' h _ => ?_
    obtain ⟨ha, hf, hadd⟩ := after_of_ok h ▸ fresh_lookupChild _ _ _ s hs
    exact ih dir s' ⟨⟨ha.1, (ha.1.cache a ha.2 .dir p dir (lookupChild_cache hash h)).1⟩, hf, hadd⟩

end Methods

/-! ## Runs -/

section Runs

variable (hash)

/-- The calls that keep the links fresh: all but the cases of `AddChild` and `RenameEntry` above. -/
def Call.Safe (s : Heap) : Call → Prop
  | .renameEntry a oldname newname => ∀ e s', Directory.childDir hash a oldname s = .error e s' →
      (s.dirs a).childDirs newname = none
  | .addChild _ _ nd => ∀ i, nd.data.unmarshal = .ok i →
      (∀ c, i.type ≠ .other c) ∧ (i.type = .directory → nd ∈ s.dserv.blocks)
  | _ => True

/-- Every call is on an allocated directory and safe in the state the calls before it leave. -/
def SafeRun : Heap → List Call → Prop
  | _, [] => True
  | s, c :: calls => c.addr < s.nextDir ∧ c.Safe hash s ∧ SafeRun (after (c.run hash) s) calls

variable {s : Heap}

/-- A safe call keeps the links fresh, whether it returns or fails. -/
theorem fresh_call (c : Call) (hs : FreshAt hash c.addr s) (hc : c.Safe hash s) :
    Fresh hash (after (c.run hash) s) := by
  cases c with
  | «open» a tpath mode =>
    exact after_bind_of_ok (fresh_open hash a tpath mode s hs) fun _ _ _ h => h
  | mkdir a name => exact ((Preserves.bind (fresh_mkdir hash name) fun _ => .pure ()) s hs).2.1
  | unlink a name => exact (fresh_unlink hash name s hs).2.1
  | renameEntry a o n => exact (fresh_renameEntry hash o n hs hc).2.1
  | addChild a name nd => exact (fresh_addChild hash name nd hs hc).2.1
  | child a name => exact ((Preserves.bind (fresh_child name) fun _ => .pure ()) s hs).2.1
  | closeChild a name => exact (fresh_closeChild hash name s hs).2.1

/-- The run lemma: a safe run keeps the tree and its fresh links. -/
theorem fresh_runCalls (hs : Tree s) (hf : Fresh hash s) (hadd : s.dserv.Accepts)
    (calls : List Call) (hc : SafeRun hash s calls) :
    Tree (runCalls hash s calls) ∧ Fresh hash (runCalls hash s calls) := by
  induction calls generalizing s with
  | nil => exact ⟨hs, hf⟩
  | cons c calls ih =>
    exact ih (tree_call c hs hc.1) (fresh_call hash c ⟨⟨hs, hc.1⟩, hf, hadd⟩ hc.2.1)
      (accepts_runCalls hash hadd [c]) hc.2.2

theorem fresh_root (name : String) (node : Node) (ds : DAGService) :
    Fresh hash (Heap.root name node ds) := fun _ _ _ _ h _ => by
  simp [Heap.root] at h

/-- Over every safe run from a root, each cached directory is linked by the hash of its node. -/
theorem links_fresh_runCalls {name : String} {node : Node} {ds : DAGService} (hadd : ds.Accepts)
    (calls : List Call) (hc : SafeRun hash (Heap.root name node ds) calls) :
    let s := runCalls hash (Heap.root name node ds) calls
    ∀ p < s.nextDir, ∀ n x, (s.dirs p).childDirs n = some x →
      (s.dirs p).node.links.find? (·.name = n) = some ⟨n, hash (s.dirs x).node⟩ ∧
        (s.dirs x).node ∈ s.dserv.blocks :=
  fun p hp n x h =>
    (fresh_runCalls hash (tree_root _ _ _) (fresh_root hash _ _ _) hadd calls hc).2 p hp n x h id

/-- `Child("x")`, `Open(["f"])` in it and the rename of "x" to "z", from a root linking "x". -/
theorem links_fresh_runCalls_linked :
    let calls : List Call := [.child 0 "x", .open 1 ["f"] 0, .renameEntry 0 "x" "z"]
    SafeRun sizeHash (Heap.linked sizeHash "x" emptyDirNode) calls ∧
      let s := runCalls sizeHash (Heap.linked sizeHash "x" emptyDirNode) calls
      ∀ p < s.nextDir, ∀ n x, (s.dirs p).childDirs n = some x →
        (s.dirs p).node.links.find? (·.name = n) = some ⟨n, sizeHash (s.dirs x).node⟩ ∧
          (s.dirs x).node ∈ s.dserv.blocks :=
  have hc : SafeRun sizeHash (Heap.linked sizeHash "x" emptyDirNode)
      [.child 0 "x", .open 1 ["f"] 0, .renameEntry 0 "x" "z"] :=
    ⟨by decide, trivial, by decide, trivial, by decide, fun _ _ _ => by decide, trivial⟩
  ⟨hc, links_fresh_runCalls sizeHash (DAGService.accepts_ofBlocks _) _ hc⟩

end Runs

/-! ## Where a rename makes a link stale -/

section Stale

variable (hash) {s : Heap} {a f y : Nat} {old new : String}

end Stale

end Ipnsfs

end GoIpfs
