import GoIpfs.Io.Content

/-!
# `WriteTo` against the `Read` loop

A caller that drains a reader through `Read` calls stops at the first error (`readSeq`).
`WriteTo` writes what such a loop returns, from any reader state and whatever the DAG holds:
both hand out the reader's stream, and both stop at its error (`writeTo_readSeq`). The count
`WriteTo` returns is an `int64` sum, so it wraps past `2 ^ 63 - 1` bytes, which a DAG that
links one child many times reaches with few nodes (`writeTo_count_wraps`).
-/

namespace GoIpfs

namespace DagReader

/-- `Read` with a buffer of each length in `ks`, until a call returns an error. -/
def readSeq (dr : DagReader) : List Nat → List UInt8 × Option Error × DagReader
  | [] => ([], none, dr)
  | k :: ks =>
    let r := dr.read k
    match r.2.2 with
    | some e => (r.2.1, some e, r.1)
    | none =>
      let s := r.1.readSeq ks
      (r.2.1 ++ s.1, s.2.1, s.2.2)

theorem readSeq_singleton (dr : DagReader) (k : Nat) {e : Error} (h : (dr.read k).2.2 = some e) :
    dr.readSeq [k] = ((dr.read k).2.1, some e, (dr.read k).1) := by
  simp only [readSeq, h]

/-- A `Read` loop that reaches an error has returned the whole stream, and its error. -/
theorem readSeq_of_error (dr : DagReader) (ks : List Nat) {e : Error}
    (h : (dr.readSeq ks).2.1 = some e) :
    (dr.readSeq ks).1 = dr.stream.bytes ∧ e = dr.stream.err ∧
      (dr.readSeq ks).2.2.offset = int64 (dr.offset + dr.stream.bytes.length) := by
  induction ks generalizing dr with
  | nil => cases h
  | cons k ks ih =>
    obtain ⟨out, hout, hr, hshort, hoff⟩ := dr.readLoop_readsFrom k [] (Nat.zero_le _)
    simp only [List.nil_append, List.length_nil, Nat.sub_zero] at hout hr hshort
    obtain rfl : out = dr.stream.bytes.take k := hr.out_eq
    by_cases hk : k ≤ dr.stream.bytes.length
    · -- the call filled the buffer, and the loop goes on from the rest of the stream
      obtain ⟨hnone, hpost⟩ := hr.filled hk
      have hnone' : (dr.read k).2.2 = none := hnone
      simp only [readSeq, hnone'] at h ⊢
      obtain ⟨h₁, h₂, h₃⟩ := ih (dr.read k).1 h
      rw [show (dr.read k).1.stream = _ from hpost] at h₁ h₂ h₃
      refine ⟨by rw [h₁, show (dr.read k).2.1 = _ from hout, List.take_append_drop], h₂, ?_⟩
      rw [h₃, show (dr.read k).1.offset = _ from hoff, int64_int64_add, Int.add_assoc]
      simp only [List.length_take, List.length_drop]
      congr 2
      omega
    · -- the call ran past the end of the stream and returned its error
      have herr : (dr.read k).2.2 = some dr.stream.err := hshort (by omega)
      simp only [readSeq, herr, Option.some.injEq] at h ⊢
      rw [List.take_of_length_le (by omega)] at hout hoff
      exact ⟨hout, h.symm, hoff⟩

/-- `WriteTo` writes, counts and reports what a `Read` loop returns up to its first error. -/
theorem writeTo_readSeq (dr : DagReader) (ks : List Nat) {e : Error}
    (h : (dr.readSeq ks).2.1 = some e) :
    dr.writeTo.2.1 = (dr.readSeq ks).1 ∧ dr.writeTo.2.2.1 = int64 (dr.readSeq ks).1.length ∧
      dr.writeTo.2.2.2 = (if e = .eof then none else some e) ∧
      dr.writeTo.1.offset = (dr.readSeq ks).2.2.offset := by
  obtain ⟨h₁, rfl, h₃⟩ := readSeq_of_error dr ks h
  obtain ⟨w₁, w₂, w₃⟩ := dr.writeToLoop_spec []
  rw [List.nil_append] at w₁
  rw [writeTo_eq]
  exact ⟨w₁.trans h₁.symm, by rw [w₁, h₁], w₂, w₃.trans h₃.symm⟩

theorem writeTo_readSeq_chunkedFile :
    let dr := newDataFileReader Dag.chunkedFile ⟨.file, [], 11, [4, 4, 3]⟩
    (dr.readSeq [4, 8]).2.1 = some .eof ∧
      dr.writeTo.2.1 = (dr.readSeq [4, 8]).1 ∧
      dr.writeTo.2.2.1 = int64 (dr.readSeq [4, 8]).1.length ∧
      dr.writeTo.2.2.2 = (if Error.eof = .eof then none else some .eof) ∧
      dr.writeTo.1.offset = (dr.readSeq [4, 8]).2.2.offset := by
  intro dr
  have hst : dr.stream = ⟨[97, 98, 99, 100, 101, 102, 103, 104, 105, 106, 107], .eof⟩ :=
    stream_newDataFileReader_of_isFile rfl rfl
  obtain ⟨r₁, s₁, -⟩ := read_of_stream hst 4
  obtain ⟨r₂, -, -⟩ := read_of_stream s₁ 8
  have hseq : (dr.readSeq [4, 8]).2.1 = some .eof := by
    simp [readSeq, r₁, r₂]
  exact ⟨hseq, writeTo_readSeq dr [4, 8] hseq⟩

end DagReader

/-- A file DAG of `2 ^ n` zero bytes in `n + 1` nodes, each File node linking one child twice. -/
def Dag.doubling : Nat → Dag
  | 0 => .mk (.pb ⟨.raw, [0], 1, []⟩) []
  | n + 1 => .mk (.pb ⟨.file, [], 0, []⟩) [.ok (Dag.doubling n), .ok (Dag.doubling n)]

theorem Dag.isFile_doubling (n : Nat) : (Dag.doubling n).isFile := by
  induction n with
  | zero => rfl
  | succ n ih => simp [doubling, isFile, allFile, ih]

theorem Dag.length_content_doubling (n : Nat) : (Dag.doubling n).content.length = 2 ^ n := by
  induction n with
  | zero => rfl
  | succ n ih =>
    simp only [doubling, content, contents, unmarshal_pb, List.append_nil, List.nil_append,
      List.length_append, ih, if_pos]
    omega

/-- On a DAG of `2 ^ 63` bytes the `Read` loop returns them all, and `WriteTo` counts `-2 ^ 63`. -/
theorem writeTo_count_wraps :
    ∃ dr, newDagReader (Dag.doubling 63) = .ok dr ∧
      (dr.readSeq [2 ^ 63 + 1]).2.1 = some .eof ∧
      (dr.readSeq [2 ^ 63 + 1]).1.length = 2 ^ 63 ∧ dr.writeTo.2.2 = (-2 ^ 63, none) := by
  obtain ⟨pb, hd, hdr⟩ := newDagReader_of_isFile (Dag.isFile_doubling 63)
  have hst := stream_newDataFileReader_of_isFile (Dag.isFile_doubling 63) hd
  have hlen := Dag.length_content_doubling 63
  obtain ⟨r, -, -⟩ := DagReader.read_of_stream hst (2 ^ 63 + 1)
  obtain ⟨w₁, w₂, -⟩ := (newDataFileReader (Dag.doubling 63) pb).writeToLoop_spec []
  have he : ((newDataFileReader (Dag.doubling 63) pb).read (2 ^ 63 + 1)).2.2 = some .eof := by
    rw [r, hlen]
    simp
  refine ⟨_, hdr, ?_, ?_, ?_⟩
  · rw [DagReader.readSeq_singleton _ _ he]
  · rw [DagReader.readSeq_singleton _ _ he, r, List.length_take, hlen]
    simp
  · rw [DagReader.writeTo_eq, w₁, w₂, hst, if_pos rfl, List.nil_append, hlen]
    rfl

end GoIpfs
