import GoIpfs.Io.Stream

/-!
# Reading a file DAG

A file DAG has only File nodes and link-free Raw nodes, every link fetched (`Dag.isFile`), and its
content is the data of its nodes in order (`Dag.content`). A reader of a file root streams exactly
the content, so successive `Read`s hand out consecutive slices of it (`reads_fileRoot`).
-/

namespace GoIpfs

namespace Dag

mutual
/-- A file DAG: every node a File node or a link-free Raw node, every link fetched. -/
def isFile : Dag → Bool
  | mk data links =>
    match data.unmarshal with
    | .ok pb => (pb.type = .raw && links.isEmpty) || (pb.type = .file && allFile links)
    | .error _ => false

/-- Every link fetched, and a file DAG. -/
def allFile : List (Except Error Dag) → Bool
  | [] => true
  | .ok c :: cs => c.isFile && allFile cs
  | .error _ :: _ => false
end

mutual
/-- A Raw node's data; a File node's data followed by the content of its children. -/
def content : Dag → List UInt8
  | mk data links =>
    match data.unmarshal with
    | .ok pb => if pb.type = .file then pb.data ++ contents links else pb.data
    | .error _ => []

/-- The content of the fetched children, in order. -/
def contents : List (Except Error Dag) → List UInt8
  | [] => []
  | .ok c :: cs => c.content ++ contents cs
  | .error _ :: cs => contents cs
end

/-- Whether a payload decodes to a Metadata node. -/
def isMetadata (p : Payload) : Bool :=
  match p.unmarshal with
  | .ok pb => pb.type = .metadata
  | .error _ => false

/-- The file DAG a reader of `n` reads: `n`, or the first link's target of a Metadata node. -/
def fileRoot (n : Dag) : Option Dag :=
  if n.isFile then some n
  else
    match n with
    | mk data (.ok c :: _) => if isMetadata data && c.isFile then some c else none
    | _ => none

mutual
theorem childStream_of_isFile : ∀ c : Dag, c.isFile → c.childStream = ⟨c.content, .eof⟩
  | mk data links, h => by
    rcases data with ⟨⟨type, d, fs, bs⟩⟩ | msg
    · cases type <;> simp [isFile, childStream, content] at h ⊢
      simp [streamLinks_of_allFile links h]
    · simp [isFile] at h

theorem streamLinks_of_allFile : ∀ ls : List (Except Error Dag), allFile ls →
    streamLinks ls = ⟨contents ls, .eof⟩
  | [], _ => rfl
  | .ok c :: cs, h => by
    simp only [allFile, Bool.and_eq_true] at h
    simp [streamLinks, contents, childStream_of_isFile c h.1, streamLinks_of_allFile cs h.2]
  | .error _ :: _, h => by simp [allFile] at h
end

/-- The content lengths of the fetched children, in order. -/
def childLengths (ls : List (Except Error Dag)) : List Nat :=
  ls.map fun | .ok c => c.content.length | .error _ => 0

mutual
/-- Every filesize is the inline length plus the blocksizes, which are the children's lengths. -/
def sizesAgree : Dag → Bool
  | mk data links =>
    match data.unmarshal with
    | .ok pb =>
      pb.filesize.toNat = pb.data.length + (pb.blocksizes.map UInt64.toNat).sum &&
        pb.blocksizes.map UInt64.toNat = childLengths links && allSizesAgree links
    | .error _ => true

/-- Every fetched child agrees with its sizes. -/
def allSizesAgree : List (Except Error Dag) → Bool
  | [] => true
  | .ok c :: cs => c.sizesAgree && allSizesAgree cs
  | .error _ :: cs => allSizesAgree cs
end

/-- The spec's chunked file: three Raw chunks "abcd", "efgh" and "ijk" under a File root. -/
def chunkedFile : Dag :=
  mk (.pb ⟨.file, [], 11, [4, 4, 3]⟩)
    [.ok (mk (.pb ⟨.raw, [97, 98, 99, 100], 4, []⟩) []),
     .ok (mk (.pb ⟨.raw, [101, 102, 103, 104], 4, []⟩) []),
     .ok (mk (.pb ⟨.raw, [105, 106, 107], 3, []⟩) [])]

theorem allFile_iff {ls : List (Except Error Dag)} :
    allFile ls ↔ ∀ p ∈ ls, ∃ c, p = .ok c ∧ c.isFile := by
  induction ls with
  | nil => simp [allFile]
  | cons p ps ih => cases p <;> simp [allFile, ih]

theorem isFile_of_mem {ls : List (Except Error Dag)} {c : Dag} (h : allFile ls) (hc : .ok c ∈ ls) :
    c.isFile := by
  obtain ⟨c', hc', hf⟩ := allFile_iff.1 h _ hc
  cases hc'
  exact hf

theorem allFile_drop {ls : List (Except Error Dag)} (h : allFile ls) (n : Nat) :
    allFile (ls.drop n) :=
  allFile_iff.2 fun p hp => allFile_iff.1 h p (List.mem_of_mem_drop hp)

/-- A file DAG's content is its inline data followed by the content of its children. -/
theorem content_of_isFile {f : Dag} {pb : Data} (hf : f.isFile) (hd : f.data.unmarshal = .ok pb) :
    f.content = pb.data ++ contents f.links ∧ allFile f.links := by
  rcases f with ⟨data, links⟩
  simp only [data_mk] at hd
  simp only [isFile, content, hd, Bool.or_eq_true, Bool.and_eq_true, decide_eq_true_eq] at hf ⊢
  rcases hf with ⟨hraw, hlinks⟩ | ⟨hfile, hall⟩
  · simp [hraw, List.isEmpty_iff.1 hlinks, contents, allFile]
  · simp [hfile, hall]

theorem length_contents (ls : List (Except Error Dag)) :
    (contents ls).length = (childLengths ls).sum := by
  induction ls with
  | nil => rfl
  | cons l ls ih => cases l <;> simp [contents, childLengths, ih] at *

theorem sizesAgree_of_data {f : Dag} {pb : Data} (hs : f.sizesAgree)
    (hd : f.data.unmarshal = .ok pb) :
    pb.filesize.toNat = pb.data.length + (pb.blocksizes.map UInt64.toNat).sum ∧
      pb.blocksizes.map UInt64.toNat = childLengths f.links ∧ allSizesAgree f.links := by
  rcases f with ⟨data, links⟩
  simp only [data_mk] at hd
  simpa [sizesAgree, hd, and_assoc] using hs

theorem sizesAgree_of_mem {ls : List (Except Error Dag)} {c : Dag} (h : allSizesAgree ls)
    (hc : .ok c ∈ ls) : c.sizesAgree := by
  induction ls with
  | nil => simp at hc
  | cons p ps ih =>
    cases p with
    | error e => exact ih h (by simpa using hc)
    | ok c' =>
      simp only [allSizesAgree, Bool.and_eq_true] at h
      rcases List.mem_cons.1 hc with hc | hc
      · cases hc
        exact h.1
      · exact ih h.2 hc

/-- In a file DAG whose sizes agree, the content is as long as the root's filesize. -/
theorem length_content {f : Dag} {pb : Data} (hf : f.isFile) (hs : f.sizesAgree)
    (hd : f.data.unmarshal = .ok pb) : f.content.length = pb.filesize.toNat := by
  obtain ⟨hsize, hbs, -⟩ := sizesAgree_of_data hs hd
  rw [(content_of_isFile hf hd).1, hsize, hbs, List.length_append, length_contents]

end Dag

theorem stream_newDataFileReader_of_isFile {f : Dag} {pb : Data} (hf : f.isFile)
    (hd : f.data.unmarshal = .ok pb) : (newDataFileReader f pb).stream = ⟨f.content, .eof⟩ := by
  rcases f with ⟨data, links⟩
  simp only [Dag.data_mk] at hd
  rw [DagReader.stream_newDataFileReader]
  simp only [Dag.isFile, hd, Bool.or_eq_true, Bool.and_eq_true, decide_eq_true_eq] at hf
  rcases hf with ⟨hraw, hlinks⟩ | ⟨hfile, hall⟩
  · simp [List.isEmpty_iff.1 hlinks, Dag.streamLinks, Dag.content, hd, hraw]
  · simp [Dag.streamLinks_of_allFile links hall, Dag.content, hd, hfile]

theorem newDagReader_of_isFile {f : Dag} (hf : f.isFile) :
    ∃ pb, f.data.unmarshal = .ok pb ∧ newDagReader f = .ok (newDataFileReader f pb) := by
  rcases f with ⟨data, links⟩
  rcases hd : data.unmarshal with e | pb
  · simp [Dag.isFile, hd] at hf
  · simp only [Dag.isFile, hd, Bool.or_eq_true, Bool.and_eq_true, decide_eq_true_eq] at hf
    refine ⟨pb, hd, newDagReader_of_data hd ?_⟩
    rcases hf with ⟨htype, -⟩ | ⟨htype, -⟩ <;> simp [htype]

/-- `NewDagReader` on a file root opens a reader over the file DAG it reads. -/
theorem newDagReader_of_fileRoot {n f : Dag} (h : n.fileRoot = some f) :
    f.isFile ∧ ∃ pb, f.data.unmarshal = .ok pb ∧ newDagReader n = .ok (newDataFileReader f pb) := by
  unfold Dag.fileRoot at h
  split at h
  · cases h
    exact ⟨‹_›, newDagReader_of_isFile ‹_›⟩
  · split at h
    · rename_i data c _
      simp only [Option.ite_none_right_eq_some, Option.some.injEq, Bool.and_eq_true] at h
      obtain ⟨⟨hmeta, hc⟩, rfl⟩ := h
      refine ⟨hc, ?_⟩
      unfold Dag.isMetadata at hmeta
      split at hmeta
      · rename_i pbm hm
        rw [newDagReader_metadata hm (of_decide_eq_true hmeta)]
        exact newDagReader_of_isFile hc
      · cases hmeta
    · cases h
/-! ## Successive reads -/

namespace DagReader

/-- `Read` called once with a buffer of each length in `ks`, in order. -/
def reads (dr : DagReader) : List Nat → List (List UInt8 × Option Error) × DagReader
  | [] => ([], dr)
  | k :: ks =>
    let (dr', out, err) := dr.read k
    let (rs, drn) := dr'.reads ks
    ((out, err) :: rs, drn)

/-- One `Read` of a reader whose stream ends cleanly: the next `k` bytes, and the offset moved. -/
theorem read_of_stream {dr : DagReader} {rest : List UInt8} (h : dr.stream = ⟨rest, .eof⟩)
    (k : Nat) :
    (dr.read k).2 = (rest.take k, if k ≤ rest.length then none else some .eof) ∧
      (dr.read k).1.stream = ⟨rest.drop k, .eof⟩ ∧
      (dr.read k).1.offset = int64 (dr.offset + (rest.take k).length) := by
  obtain ⟨out, hout, hr, hshort, hoff⟩ := dr.readLoop_readsFrom k [] (Nat.zero_le _)
  rw [h] at hr hshort
  simp only [List.nil_append, List.length_nil, Nat.sub_zero] at hout hr hshort
  have hout' : out = rest.take k := hr.out_eq
  subst hout'
  refine ⟨?_, ?_, hoff⟩ <;> by_cases hk : k ≤ rest.length
  · simpa [read, hk] using Prod.ext hout (hr.filled hk).1
  · simpa [read, hk] using Prod.ext hout (hshort (by omega))
  · exact (hr.filled hk).2
  · rw [List.drop_eq_nil_of_le (by omega)]
    exact hr.ended (show rest.length < k by omega) rfl

end DagReader

/-- The spec's successive reads of `rest`, with end-of-stream when a read does not fill `b`. -/
def expectedReads (rest : List UInt8) : List Nat → List (List UInt8 × Option Error)
  | [] => []
  | k :: ks =>
    (rest.take k, if k ≤ rest.length then none else some .eof) :: expectedReads (rest.drop k) ks

/-- The number of bytes a list of reads returned. -/
def returned (rs : List (List UInt8 × Option Error)) : Nat := (rs.map fun r => r.1.length).sum

theorem returned_expectedReads_le (rest : List UInt8) (ks : List Nat) :
    returned (expectedReads rest ks) ≤ rest.length := by
  induction ks generalizing rest with
  | nil => simp [expectedReads, returned]
  | cons k ks ih =>
    have := ih (rest.drop k)
    simp only [expectedReads, returned, List.map_cons, List.sum_cons, List.length_take,
      List.length_drop] at this ⊢
    omega

namespace DagReader

theorem reads_of_stream {dr : DagReader} {rest : List UInt8} (h : dr.stream = ⟨rest, .eof⟩)
    (hoff : int64 dr.offset = dr.offset) (ks : List Nat) :
    (dr.reads ks).1 = expectedReads rest ks ∧
      (dr.reads ks).2.offset = int64 (dr.offset + returned (expectedReads rest ks)) := by
  induction ks generalizing dr rest with
  | nil => simpa [reads, expectedReads, returned] using hoff.symm
  | cons k ks ih =>
    obtain ⟨hrd, hst, hoff'⟩ := read_of_stream h k
    obtain ⟨ih₁, ih₂⟩ := ih hst (by rw [hoff', int64_int64])
    refine ⟨by simp [reads, expectedReads, hrd.symm, ih₁], ?_⟩
    simp only [reads, expectedReads, returned, List.map_cons, List.sum_cons] at ih₂ ⊢
    rw [ih₂, hoff', int64_int64_add, Int.add_assoc]
    push_cast
    rfl

end DagReader

/-- Successive `Read`s on a file root hand out consecutive slices of its content. -/
theorem reads_fileRoot {n f : Dag} (h : n.fileRoot = some f) :
    ∃ dr, newDagReader n = .ok dr ∧
      (∀ ks, (dr.reads ks).1 = expectedReads f.content ks ∧
        (dr.reads ks).2.offset = int64 (returned (expectedReads f.content ks))) ∧
      (f.sizesAgree → dr.size = int64 f.content.length) := by
  obtain ⟨hf, pb, hd, hr⟩ := newDagReader_of_fileRoot h
  refine ⟨_, hr, fun ks => ?_, fun hs => ?_⟩
  · have := DagReader.reads_of_stream (stream_newDataFileReader_of_isFile hf hd) rfl ks
    simpa [newDataFileReader] using this
  · simp [DagReader.size, newDataFileReader, Dag.length_content hf hs hd]

theorem reads_chunkedFile :
    Dag.chunkedFile.fileRoot = some Dag.chunkedFile ∧
      ∃ dr, newDagReader Dag.chunkedFile = .ok dr ∧
        (dr.reads [11]).1 = [([97, 98, 99, 100, 101, 102, 103, 104, 105, 106, 107], none)] ∧
        dr.size = 11 := by
  obtain ⟨dr, hdr, hreads, hsize⟩ := reads_fileRoot (n := Dag.chunkedFile) rfl
  exact ⟨rfl, dr, hdr, by rw [(hreads [11]).1]; decide, by rw [hsize rfl]; decide⟩

/-- An empty `Read` after the end reports no error, and a Raw root's `Size()` is its filesize. -/
theorem read_empty_after_end :
    ∃ dr, newDagReader (.mk (.pb ⟨.raw, [104, 105], 0, []⟩) []) = .ok dr ∧
      (dr.reads [3, 0]).1 = [([104, 105], some .eof), ([], none)] ∧ dr.size = 0 := by
  refine ⟨_, newDagReader_of_data rfl (.inl rfl), ?_, rfl⟩
  rw [(DagReader.reads_of_stream
    (stream_newDataFileReader_of_isFile (f := .mk (.pb ⟨.raw, [104, 105], 0, []⟩) []) rfl rfl) rfl
    [3, 0]).1]
  decide

end GoIpfs
