import GoIpfs.Io.DagReader

/-!
# What a reader produces

`DagReader.stream` is everything a reader still produces from its state, as a `Yield`: the bytes
up to the end of the stream and the error it ends with. It is defined by structural recursion,
with no fuel, and `precalcNextBuf` refines it (`streamLinks_drop_linkPosition`).
-/

namespace GoIpfs

/-- The bytes a reader still produces and the error its stream ends with. -/
structure Yield where
  bytes : List UInt8
  err : Error
  deriving DecidableEq, Repr

namespace Yield

/-- `y` followed by `z`: `z` is reached only when `y` ends cleanly. -/
def andThen (y z : Yield) : Yield :=
  if y.err = .eof then ⟨y.bytes ++ z.bytes, z.err⟩ else y

@[simp] theorem andThen_of_eof (b : List UInt8) (z : Yield) :
    (⟨b, .eof⟩ : Yield).andThen z = ⟨b ++ z.bytes, z.err⟩ := by
  simp [andThen]

theorem andThen_of_ne {y : Yield} (h : y.err ≠ .eof) (z : Yield) : y.andThen z = y := by
  simp [andThen, h]

theorem andThen_of_eq_eof {y : Yield} (h : y.err = .eof) (z : Yield) :
    y.andThen z = ⟨y.bytes ++ z.bytes, z.err⟩ := by
  simp [andThen, h]

theorem length_le_andThen (y z : Yield) : y.bytes.length ≤ (y.andThen z).bytes.length := by
  unfold andThen; split <;> simp

theorem take_andThen {y : Yield} {m : Nat} (h : m ≤ y.bytes.length) (z : Yield) :
    (y.andThen z).bytes.take m = y.bytes.take m := by
  unfold andThen; split
  · exact List.take_append_of_le_length h
  · rfl

theorem drop_andThen {y : Yield} {m : Nat} (h : m ≤ y.bytes.length) (z : Yield) :
    (⟨y.bytes.drop m, y.err⟩ : Yield).andThen z = ⟨(y.andThen z).bytes.drop m, (y.andThen z).err⟩ := by
  unfold andThen; split
  · simp [List.drop_append_of_le_length h]
  · rfl

theorem andThen_assoc (x y z : Yield) : (x.andThen y).andThen z = x.andThen (y.andThen z) := by
  by_cases hx : x.err = .eof
  · by_cases hy : y.err = .eof <;> simp [andThen, hx, hy]
  · simp [andThen, hx]

end Yield

namespace Dag

mutual
/-- What reading the links `ls` in order produces, each as `precalcNextBuf` opens it. -/
def streamLinks : List (Except Error Dag) → Yield
  | [] => ⟨[], .eof⟩
  | .error e :: _ => ⟨[], e⟩
  | .ok c :: cs => c.childStream.andThen (streamLinks cs)

/-- What the buffer opened on a child produces: a Raw child its data, a File its data and links. -/
def childStream : Dag → Yield
  | mk data links =>
    match data.unmarshal with
    | .error e => ⟨[], e⟩
    | .ok pb =>
      match pb.type with
      | .directory => ⟨[], .invalidDirLocation⟩
      | .file => (⟨pb.data, .eof⟩ : Yield).andThen (streamLinks links)
      | .raw => ⟨pb.data, .eof⟩
      | .metadata => ⟨[], .new "Shouldnt have had metadata object inside file"⟩
      | .other _ => ⟨[], .unrecognizedType⟩
end

end Dag

namespace DagReader

/-- What a reader still produces: its buffer, then the links from `linkPosition` on. -/
def stream : DagReader → Yield
  | ⟨_, buf, ps, lp, _⟩ => (bufStream buf).andThen (Dag.streamLinks (ps.drop lp))
where
  bufStream : ReadSeekCloser DagReader → Yield
    | .rsnc r => ⟨r.rest, .eof⟩
    | .dagReader r => r.stream

@[simp] theorem bufStream_rsnc (r : BytesReader) : stream.bufStream (.rsnc r) = ⟨r.rest, .eof⟩ :=
  rfl

@[simp] theorem bufStream_dagReader (r : DagReader) : stream.bufStream (.dagReader r) = r.stream :=
  rfl

theorem stream_eq (dr : DagReader) :
    dr.stream = (stream.bufStream dr.buf).andThen (Dag.streamLinks (dr.promises.drop dr.linkPosition)) := by
  rcases dr with ⟨_, _ | _, _, _, _⟩ <;> rfl

theorem stream_newDataFileReader (n : Dag) (pb : Data) :
    (newDataFileReader n pb).stream = (⟨pb.data, .eof⟩ : Yield).andThen (Dag.streamLinks n.links) := by
  simp [stream_eq, newDataFileReader, newRSNCFromBytes, stream.bufStream, BytesReader.rest]

/-- `precalcNextBuf` opens the stream of the links still to be read. -/
theorem streamLinks_drop_linkPosition (dr : DagReader) :
    Dag.streamLinks (dr.promises.drop dr.linkPosition) =
      match dr.precalcNextBuf with
      | (dr', none) => dr'.stream
      | (_, some e) => ⟨[], e⟩ := by
  unfold precalcNextBuf
  by_cases hlt : dr.linkPosition < dr.promises.length
  · rw [dif_pos hlt, List.drop_eq_getElem_cons hlt]
    generalize dr.promises[dr.linkPosition] = p
    rcases p with e | ⟨data, links⟩
    · rfl
    · rcases data with ⟨⟨type, d, fs, bs⟩⟩ | msg
      · cases type with
        | file =>
          simp only [Dag.streamLinks, Dag.childStream, Dag.data_mk, unmarshal_pb]
          rw [stream_eq, bufStream_dagReader, stream_newDataFileReader]
          rfl
        | raw | directory | metadata | other _ =>
          simp [Dag.streamLinks, Dag.childStream, Yield.andThen, stream_eq, BytesReader.rest,
            newRSNCFromBytes]
      · simp [Dag.streamLinks, Dag.childStream, Yield.andThen]
  · rw [dif_neg hlt, List.drop_eq_nil_of_le (Nat.le_of_not_lt hlt)]
    rfl

theorem precalcNextBuf_eof {dr dr' : DagReader} (h : dr.precalcNextBuf = (dr', some .eof)) :
    dr' = dr := by
  unfold precalcNextBuf at h
  split at h
  · split at h
    · cases h; rfl
    · split at h
      · cases h
        exact absurd ‹_› (unmarshal_ne_eof _)
      · split at h <;> cases h
  · cases h; rfl

theorem precalcNextBuf_offset (dr : DagReader) : dr.precalcNextBuf.1.offset = dr.offset := by
  rcases precalcNextBuf_fst dr with h | ⟨buf, h⟩ <;> rw [h]

end DagReader

/-- What reading `m` bytes may do to a stream `y`, leaving `post`. -/
structure ReadsFrom (y : Yield) (m : Nat) (out : List UInt8) (err : Option Error) (post : Yield) :
    Prop where
  out_eq : out = y.bytes.take m
  filled : m ≤ y.bytes.length → err = none ∧ post = ⟨y.bytes.drop m, y.err⟩
  short : y.bytes.length < m → err = some y.err ∨ err = none ∧ y.err = .eof
  ended : y.bytes.length < m → y.err = .eof → post = ⟨[], .eof⟩

theorem ReadsFrom.prepend {y : Yield} {m : Nat} {out : List UInt8} {err : Option Error}
    {post : Yield} (h : ReadsFrom y m out err post) (p : List UInt8) :
    ReadsFrom ⟨p ++ y.bytes, y.err⟩ (p.length + m) (p ++ out) err post where
  out_eq := by
    rw [h.out_eq, List.take_append_eq_append_take, List.take_of_length_le (Nat.le_add_right _ _),
      Nat.add_sub_cancel_left]
  filled hm := by
    obtain ⟨herr, rfl⟩ := h.filled (by simp only [List.length_append] at hm; omega)
    rw [List.drop_append_eq_append_drop, List.drop_eq_nil_of_le (Nat.le_add_right _ _),
      Nat.add_sub_cancel_left]
    exact ⟨herr, rfl⟩
  short hm := h.short (by simp only [List.length_append] at hm; omega)
  ended hm := h.ended (by simp only [List.length_append] at hm; omega)

theorem ReadsFrom.of_short {b : List UInt8} {e : Error} {m : Nat} {post : Yield}
    (hb : b.length < m) (hpost : e = .eof → post = ⟨[], .eof⟩) : ReadsFrom ⟨b, e⟩ m b (some e) post where
  out_eq := (List.take_of_length_le hb.le).symm
  filled hm := absurd hm (by simpa using hb)
  short _ := .inl rfl
  ended _ := hpost

namespace ReadsFrom

variable {y z post : Yield} {m : Nat} {out : List UInt8} {err : Option Error}

/-- A read that reports an error other than a clean end reported the stream's error. -/
theorem of_failed (h : ReadsFrom y m out err post) (he : err ≠ none ∧ err ≠ some .eof) :
    err = some y.err ∧ y.andThen z = y ∧ ∀ post', ReadsFrom y m out err post' := by
  have hlt : y.bytes.length < m := Nat.lt_of_not_le fun hm => he.1 (h.filled hm).1
  have herr : err = some y.err := (h.short hlt).resolve_right fun h' => he.1 h'.1
  have hne : y.err ≠ .eof := fun h' => he.2 (herr.trans (congrArg some h'))
  exact ⟨herr, Yield.andThen_of_ne hne z, fun _ =>
    ⟨h.out_eq, fun hm => absurd hm (by omega), fun _ => .inl herr, fun _ h' => absurd h' hne⟩⟩

/-- A read that filled its buffer reads the same from any stream that continues `y`. -/
theorem of_filled (h : ReadsFrom y m out err post) (hm : out.length = m) :
    err = none ∧ m ≤ (y.andThen z).bytes.length ∧
      ReadsFrom (y.andThen z) m out none (post.andThen z) := by
  have hm' : m ≤ y.bytes.length := by
    have := h.out_eq ▸ hm
    simp at this; omega
  obtain ⟨rfl, hpost⟩ := h.filled hm'
  have hle := hm'.trans (Yield.length_le_andThen y z)
  refine ⟨rfl, hle, ⟨by rw [Yield.take_andThen hm', h.out_eq], fun _ => ⟨rfl, ?_⟩,
    fun h' => absurd h' (by omega), fun h' => absurd h' (by omega)⟩⟩
  rw [hpost, Yield.drop_andThen hm']

/-- A read with no error and fewer than `m` bytes met the clean end and leaves nothing. -/
theorem of_ended (h : ReadsFrom y m out err post) (he : ¬(err ≠ none ∧ err ≠ some .eof))
    (hm : out.length ≠ m) : out.length < m ∧ y = ⟨out, .eof⟩ ∧ post = ⟨[], .eof⟩ := by
  have hlt : y.bytes.length < m := by
    have := h.out_eq ▸ hm
    simp at this; omega
  have hend : y.err = .eof := by
    rcases h.short hlt with h' | h'
    · rw [h'] at he; simpa using he
    · exact h'.2
  have hbytes : out = y.bytes := by rw [h.out_eq, List.take_of_length_le hlt.le]
  exact ⟨hbytes ▸ hlt, by rw [hbytes, ← hend], h.ended hlt hend⟩

end ReadsFrom

theorem BytesReader.readsFrom (r : BytesReader) (m : Nat) :
    ReadsFrom ⟨r.rest, .eof⟩ m (r.read m).2.1 (r.read m).2.2 ⟨(r.read m).1.rest, .eof⟩ where
  out_eq := by rw [read_eq]
  filled hm := by
    refine ⟨?_, by rw [read_rest]⟩
    rw [read_eq]
    rcases Nat.eq_zero_or_pos m with rfl | hpos
    · simp
    · simp only [ne_eq, ite_eq_right_iff, and_imp]
      intro _ he
      simp [he] at hm
      omega
  short _ := by
    rw [read_eq]
    split <;> simp
  ended hm _ := by
    rw [read_rest, List.drop_eq_nil_of_le (by simp at hm ⊢; omega)]

namespace DagReader

theorem stream_with_buf (dr : DagReader) (buf : ReadSeekCloser DagReader) (offset : Int) :
    ({ dr with buf, offset } : DagReader).stream =
      (stream.bufStream buf).andThen (Dag.streamLinks (dr.promises.drop dr.linkPosition)) :=
  stream_eq _

/-- `Read`'s loop from `dr`, with `acc` in `b`, refines the stream and moves the offset. -/
def LoopReads (dr : DagReader) (k : Nat) (acc : List UInt8) : Prop :=
  ∃ out, (dr.readLoop k acc).2.1 = acc ++ out ∧
    ReadsFrom dr.stream (k - acc.length) out (dr.readLoop k acc).2.2 (dr.readLoop k acc).1.stream ∧
    (dr.stream.bytes.length < k - acc.length → (dr.readLoop k acc).2.2 = some dr.stream.err) ∧
    (dr.readLoop k acc).1.offset = int64 (dr.offset + out.length)

/-- One pass of `Read`'s loop refines the stream, given the buffer's read and the rest (`ih`). -/
theorem loopReads_of_bufRead (dr : DagReader) (k : Nat) (acc : List UInt8) (hacc : acc.length ≤ k)
    (hb : ReadsFrom (stream.bufStream dr.buf) (k - acc.length) (bufRead dr.buf (k - acc.length)).2.1
      (bufRead dr.buf (k - acc.length)).2.2 (stream.bufStream (bufRead dr.buf (k - acc.length)).1))
    (ih : ∀ buf offset dr₂, ({ dr with buf, offset } : DagReader).precalcNextBuf = (dr₂, none) →
      ∀ acc', acc'.length ≤ k → LoopReads dr₂ k acc') :
    LoopReads dr k acc := by
  unfold LoopReads
  rw [readLoop]
  have hs := stream_eq dr
  generalize bufRead dr.buf (k - acc.length) = b at hb ⊢
  obtain ⟨buf, out, err⟩ := b
  have hs₁ := stream_with_buf dr buf (int64 (dr.offset + out.length))
  have hl := streamLinks_drop_linkPosition ({ dr with buf, offset := int64 (dr.offset + out.length) })
  generalize stream.bufStream dr.buf = yb at hb hs
  generalize Dag.streamLinks (dr.promises.drop dr.linkPosition) = yl at hs hs₁ hl
  simp only at hb hl ⊢
  split_ifs with h₁ h₂
  · -- the buffer failed, and its error ends the stream
    obtain ⟨herr, hy, hr⟩ := hb.of_failed (z := yl) h₁
    rw [hs, hy]
    exact ⟨out, rfl, hr _, fun _ => herr, rfl⟩
  · -- `b` is full: the buffer still held every byte asked for
    obtain ⟨rfl, hm, hr⟩ := hb.of_filled (z := yl) (by simp at h₂; omega)
    rw [hs₁, hs]
    exact ⟨out, rfl, hr, fun h => absurd h (by omega), rfl⟩
  · -- the buffer ran out: it ended cleanly, and the loop opens the next link
    obtain ⟨hshort, rfl, hpost⟩ := hb.of_ended h₁ (by simp at h₂; omega)
    rw [hpost, Yield.andThen_of_eof, List.nil_append] at hs₁
    rw [Yield.andThen_of_eof] at hs
    have ho := precalcNextBuf_offset ({ dr with buf, offset := int64 (dr.offset + out.length) })
    split
    · rename_i dr₂ e hp
      rw [hp] at hl ho
      simp only at hl ho
      rw [hs, hl, List.append_nil]
      refine ⟨out, rfl, .of_short hshort fun he => ?_, fun _ => rfl, ho⟩
      subst he
      rw [precalcNextBuf_eof hp, hs₁, hl]
    · rename_i dr₂ hp
      rw [hp] at hl ho
      simp only at hl ho
      rw [hs, hl]
      have hacc' : (acc ++ out).length ≤ k := by rw [List.length_append]; omega
      obtain ⟨out₂, h₁', h₂', h₃', h₄'⟩ := ih buf _ dr₂ hp (acc ++ out) hacc'
      have hk : k - acc.length = out.length + (k - (acc ++ out).length) := by
        rw [List.length_append]; omega
      refine ⟨out ++ out₂, by rw [h₁', List.append_assoc], hk ▸ h₂'.prepend out, fun h => ?_, ?_⟩
      · exact h₃' (by simp only [List.length_append] at h ⊢; omega)
      · rw [h₄', ho, int64_int64_add, List.length_append]
        congr 1
        omega

mutual

theorem bufRead_readsFrom (buf : ReadSeekCloser DagReader) (m : Nat) :
    ReadsFrom (stream.bufStream buf) m (bufRead buf m).2.1 (bufRead buf m).2.2
      (stream.bufStream (bufRead buf m).1) := by
  match buf with
  | .rsnc r =>
    rw [bufRead]
    exact r.readsFrom m
  | .dagReader r =>
    rw [bufRead]
    obtain ⟨out, hout, h, -, -⟩ := readLoop_readsFrom r m [] (Nat.zero_le _)
    simp only [List.nil_append, List.length_nil, Nat.sub_zero] at hout h
    simpa [hout] using h
termination_by (rank.bufRank buf + 1, 0)
decreasing_by exact .left _ _ (Nat.lt_succ_self _)

/-- `Read`'s loop refines the stream. -/
theorem readLoop_readsFrom (dr : DagReader) (k : Nat) (acc : List UInt8) (hacc : acc.length ≤ k) :
    ∃ out, (dr.readLoop k acc).2.1 = acc ++ out ∧
      ReadsFrom dr.stream (k - acc.length) out (dr.readLoop k acc).2.2 (dr.readLoop k acc).1.stream ∧
      (dr.stream.bytes.length < k - acc.length → (dr.readLoop k acc).2.2 = some dr.stream.err) ∧
      (dr.readLoop k acc).1.offset = int64 (dr.offset + out.length) :=
  loopReads_of_bufRead dr k acc hacc (bufRead_readsFrom dr.buf (k - acc.length))
    fun _ _ dr₂ _ acc' hacc' => readLoop_readsFrom dr₂ k acc' hacc'
termination_by (dr.rank, dr.promises.length - dr.linkPosition + 1)
decreasing_by
  · exact bufRank_lt_of_le (Nat.succ_pos _) (bufRank_lt_rank dr)
  · exact precalcNextBuf_decreasing _ _ ‹_›

end

/-- `WriteTo`'s loop from `dr`, with `acc` written, refines the stream and moves the offset. -/
def LoopWrites (dr : DagReader) (acc : List UInt8) : Prop :=
  (dr.writeToLoop acc).2.1 = acc ++ dr.stream.bytes ∧
    (dr.writeToLoop acc).2.2 = (if dr.stream.err = .eof then none else some dr.stream.err) ∧
    (dr.writeToLoop acc).1.offset = int64 (dr.offset + dr.stream.bytes.length)

/-- One pass of `WriteTo`'s loop refines the stream, given the buffer's drain and the rest. -/
theorem loopWrites_of_bufWriteTo (dr : DagReader) (acc : List UInt8)
    (hb : (bufWriteTo dr.buf).2.1 = (stream.bufStream dr.buf).bytes ∧
      (bufWriteTo dr.buf).2.2 = if (stream.bufStream dr.buf).err = .eof then none
        else some (stream.bufStream dr.buf).err)
    (ih : ∀ buf offset dr₂, ({ dr with buf, offset } : DagReader).precalcNextBuf = (dr₂, none) →
      ∀ acc', LoopWrites dr₂ acc') :
    LoopWrites dr acc := by
  unfold LoopWrites
  rw [writeToLoop]
  obtain ⟨hout, herr⟩ := hb
  have hs := stream_eq dr
  generalize bufWriteTo dr.buf = b at hout herr ⊢
  obtain ⟨buf, out, err⟩ := b
  have hl := streamLinks_drop_linkPosition ({ dr with buf, offset := int64 (dr.offset + out.length) })
  have ho := precalcNextBuf_offset ({ dr with buf, offset := int64 (dr.offset + out.length) })
  generalize stream.bufStream dr.buf = yb at hout herr hs
  generalize Dag.streamLinks (dr.promises.drop dr.linkPosition) = yl at hs hl
  simp only at hout herr hl ho ⊢
  subst hout
  by_cases hend : yb.err = .eof
  · -- the buffer was drained, and the loop opens the next link
    rw [if_pos hend] at herr
    subst herr
    rw [if_neg (by simp), hs, Yield.andThen_of_eq_eof hend]
    split
    · rename_i dr₂ e hp
      rw [hp] at hl ho
      simp only at hl ho
      subst hl
      by_cases he : e = .eof <;> simp [he, ho]
    · rename_i dr₂ hp
      rw [hp] at hl ho
      simp only at hl ho
      subst hl
      obtain ⟨h₁, h₂, h₃⟩ := ih buf _ dr₂ hp (acc ++ yb.bytes)
      refine ⟨by rw [h₁, List.append_assoc], h₂, ?_⟩
      rw [h₃, ho, int64_int64_add, List.length_append]
      congr 1
      omega
  · -- the buffer failed, and its error ends the stream
    rw [if_neg hend] at herr
    subst herr
    rw [if_pos ⟨by simp, by simpa using hend⟩, hs, Yield.andThen_of_ne hend]
    simp [hend]

mutual

theorem bufWriteTo_spec (buf : ReadSeekCloser DagReader) :
    (bufWriteTo buf).2.1 = (stream.bufStream buf).bytes ∧
      (bufWriteTo buf).2.2 = if (stream.bufStream buf).err = .eof then none
        else some (stream.bufStream buf).err := by
  match buf with
  | .rsnc r =>
    rw [bufWriteTo, r.writeTo_eq]
    simp
  | .dagReader r =>
    rw [bufWriteTo]
    obtain ⟨h₁, h₂, -⟩ := writeToLoop_spec r []
    simpa using ⟨h₁, h₂⟩
termination_by (rank.bufRank buf + 1, 0)
decreasing_by exact .left _ _ (Nat.lt_succ_self _)

/-- `WriteTo`'s loop writes the stream, and returns its error unless it ended cleanly. -/
theorem writeToLoop_spec (dr : DagReader) (acc : List UInt8) :
    (dr.writeToLoop acc).2.1 = acc ++ dr.stream.bytes ∧
      (dr.writeToLoop acc).2.2 = (if dr.stream.err = .eof then none else some dr.stream.err) ∧
      (dr.writeToLoop acc).1.offset = int64 (dr.offset + dr.stream.bytes.length) :=
  loopWrites_of_bufWriteTo dr acc (bufWriteTo_spec dr.buf)
    fun _ _ dr₂ _ acc' => writeToLoop_spec dr₂ acc'
termination_by (dr.rank, dr.promises.length - dr.linkPosition + 1)
decreasing_by
  · exact bufRank_lt_of_le (Nat.succ_pos _) (bufRank_lt_rank dr)
  · exact precalcNextBuf_decreasing _ _ ‹_›

end

end DagReader

end GoIpfs
