import GoIpfs.Io.Stream

/-!
# What a reader does after an error

`precalcNextBuf` moves past a link before it decodes the chunk, so a chunk it cannot open
(`Dag.chunkError`) fails one `Read`, and the next `Read` or `WriteTo` hands out the following
links, the offset still at the failed chunk (`read_resumes_after_malformed`).
-/

namespace GoIpfs

namespace Dag

/-- The error `precalcNextBuf` reports for a delivered chunk it cannot open. -/
def chunkError (c : Dag) : Option Error :=
  match c.data.unmarshal with
  | .error e => some e
  | .ok pb =>
    match pb.type with
    | .directory => some .invalidDirLocation
    | .metadata => some (.new "Shouldnt have had metadata object inside file")
    | .other _ => some .unrecognizedType
    | .file | .raw => none

theorem chunkError_ne_eof {c : Dag} {e : Error} (h : c.chunkError = some e) : e ≠ .eof := by
  rintro rfl
  unfold chunkError at h
  split at h
  · rename_i e' hd
    cases h
    exact unmarshal_ne_eof _ hd
  · split at h <;> cases h

/-- A File root with no inline data over a Directory chunk and then a Raw chunk holding "hi". -/
def brokenFile : Dag :=
  mk (.pb ⟨.file, [], 2, [0, 2]⟩)
    [.ok (mk (.pb ⟨.directory, [], 0, []⟩) []), .ok (mk (.pb ⟨.raw, [104, 105], 2, []⟩) [])]

end Dag

namespace DagReader

/-- `precalcNextBuf` at such a chunk passes the link and reports its error, buffer unchanged. -/
theorem precalcNextBuf_chunkError (dr : DagReader) {c : Dag} {e : Error}
    (hc : dr.promises[dr.linkPosition]? = some (.ok c)) (he : c.chunkError = some e) :
    dr.precalcNextBuf = ({ dr with linkPosition := dr.linkPosition + 1 }, some e) := by
  obtain ⟨hlt, hget⟩ := List.getElem?_eq_some_iff.1 hc
  unfold precalcNextBuf
  rw [dif_pos hlt]
  simp only [hget]
  unfold Dag.chunkError at he
  cases hd : c.data.unmarshal with
  | error e' => simp_all
  | ok pb => cases ht : pb.type <;> simp_all

/-- A `Read` running into such a chunk returns the buffer's bytes and its error, past the chunk. -/
theorem read_chunkError {dr : DagReader} {b : List UInt8} {c : Dag} {e : Error} {k : Nat}
    (hk : b.length < k) (hbuf : stream.bufStream dr.buf = ⟨b, .eof⟩)
    (hc : dr.promises[dr.linkPosition]? = some (.ok c)) (he : c.chunkError = some e) :
    (dr.read k).2 = (b, some e) ∧ (dr.read k).1.offset = int64 (dr.offset + b.length) ∧
      (dr.read k).1.stream = Dag.streamLinks (dr.promises.drop (dr.linkPosition + 1)) := by
  have hb := bufRead_readsFrom dr.buf k
  rw [hbuf] at hb
  rw [read, readLoop]
  simp only [List.length_nil, Nat.sub_zero, List.nil_append]
  generalize bufRead dr.buf k = r at hb ⊢
  obtain ⟨buf, out, err⟩ := r
  simp only at hb ⊢
  have hout : out = b := by rw [hb.out_eq, List.take_of_length_le hk.le]
  subst out
  have herr : err = some .eof ∨ err = none := (hb.short hk).imp id And.left
  have hpost : stream.bufStream buf = ⟨[], .eof⟩ := hb.ended hk rfl
  rw [if_neg (by rcases herr with rfl | rfl <;> simp), if_neg (by omega)]
  split
  · rename_i dr₂ e' hp
    rw [precalcNextBuf_chunkError { dr with buf, offset := int64 (dr.offset + b.length) } hc he,
      Prod.mk.injEq] at hp
    obtain ⟨rfl, ⟨⟩⟩ := hp
    refine ⟨rfl, rfl, ?_⟩
    rw [stream_eq]
    simp [hpost]
  · rename_i dr₂ hp
    rw [precalcNextBuf_chunkError { dr with buf, offset := int64 (dr.offset + b.length) } hc he]
      at hp
    cases hp

/-- The error of a chunk that cannot be opened does not stick: later `Read`s and `WriteTo`
hand out the links after it, while the offset stays where the chunk begins. -/
theorem read_resumes_after_malformed (dr : DagReader) {b : List UInt8} {c : Dag} {e : Error}
    {k : Nat} (hk : b.length < k) (hbuf : stream.bufStream dr.buf = ⟨b, .eof⟩)
    (hc : dr.promises[dr.linkPosition]? = some (.ok c)) (he : c.chunkError = some e) (k' : Nat) :
    (dr.read k).2 = (b, some e) ∧ e ≠ .eof ∧ (dr.read k).1.offset = int64 (dr.offset + b.length) ∧
      ((dr.read k).1.read k').2.1 =
        (Dag.streamLinks (dr.promises.drop (dr.linkPosition + 1))).bytes.take k' ∧
      (dr.read k).1.writeTo.2.1 = (Dag.streamLinks (dr.promises.drop (dr.linkPosition + 1))).bytes := by
  obtain ⟨hr, hoff, hs⟩ := read_chunkError hk hbuf hc he
  obtain ⟨out, hout, hreads, -, -⟩ := (dr.read k).1.readLoop_readsFrom k' [] (Nat.zero_le _)
  rw [hs] at hreads
  refine ⟨hr, Dag.chunkError_ne_eof he, hoff, ?_, ?_⟩
  · rw [read, hout, List.nil_append, hreads.out_eq, List.length_nil, Nat.sub_zero]
  · rw [writeTo_eq, (writeToLoop_spec _ []).1, hs, List.nil_append]

/-- On a File root over a Directory chunk and a Raw "hi", a failed `Read` is followed by "hi". -/
theorem read_resumes_brokenFile :
    let dr := newDataFileReader Dag.brokenFile ⟨.file, [], 2, [0, 2]⟩
    (dr.read 2).2 = ([], some .invalidDirLocation) ∧ (dr.read 2).1.offset = 0 ∧
      ((dr.read 2).1.read 2).2.1 = [104, 105] ∧ (dr.read 2).1.writeTo.2.1 = [104, 105] := by
  intro dr
  obtain ⟨h₁, -, h₂, h₃, h₄⟩ :=
    read_resumes_after_malformed dr (show [].length < 2 by decide) rfl rfl rfl 2
  exact ⟨h₁, h₂, h₃.trans (by decide), h₄.trans (by decide)⟩

end DagReader

end GoIpfs
