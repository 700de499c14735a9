import GoIpfs.Io.ChunkLoop

/-!
# Seeking

`Read`, `WriteTo` and `Seek` never change the file a reader reads (`Reaches.sameFile`). From every
state they reach, a `Seek` inside the inline data or before the end of the file lands there and
the reader streams the content from it (`seek_fileRoot`). At the end of the file and past it the
chunk loop finds no chunk, and `Seek` reopens the chunk at the old link position
(`seek_past_chunks`).
-/

namespace GoIpfs

namespace DagReader

/-! ## What the calls keep -/

/-- `dr'` reads the same node as `dr`, through the same promises. -/
def SameFile (dr dr' : DagReader) : Prop := dr'.pbdata = dr.pbdata ∧ dr'.promises = dr.promises

theorem SameFile.trans {dr₁ dr₂ dr₃ : DagReader} (h₁ : SameFile dr₁ dr₂) (h₂ : SameFile dr₂ dr₃) :
    SameFile dr₁ dr₃ :=
  ⟨h₂.1.trans h₁.1, h₂.2.trans h₁.2⟩

theorem sameFile_of_precalcNextBuf {dr dr' : DagReader} {e : Option Error}
    (h : dr.precalcNextBuf = (dr', e)) : SameFile dr dr' := by
  rcases precalcNextBuf_fst dr with h' | ⟨buf, h'⟩ <;>
    · rw [h] at h'
      subst h'
      exact ⟨rfl, rfl⟩

theorem readLoop_sameFile (dr : DagReader) (k : Nat) (acc : List UInt8) :
    SameFile dr (dr.readLoop k acc).1 := by
  rw [readLoop]
  generalize bufRead dr.buf (k - acc.length) = b
  obtain ⟨buf, out, err⟩ := b
  simp only
  split_ifs
  · exact ⟨rfl, rfl⟩
  · exact ⟨rfl, rfl⟩
  · split
    · rename_i hp
      exact (sameFile_of_precalcNextBuf hp :)
    · rename_i dr₂ hp
      exact (sameFile_of_precalcNextBuf hp).trans (readLoop_sameFile dr₂ k _)
termination_by (dr.rank, dr.promises.length - dr.linkPosition + 1)
decreasing_by exact precalcNextBuf_decreasing _ _ ‹_›

theorem writeToLoop_sameFile (dr : DagReader) (acc : List UInt8) :
    SameFile dr (dr.writeToLoop acc).1 := by
  rw [writeToLoop]
  generalize bufWriteTo dr.buf = b
  obtain ⟨buf, out, err⟩ := b
  simp only
  split_ifs
  · exact ⟨rfl, rfl⟩
  · split
    · rename_i hp
      split_ifs <;> exact (sameFile_of_precalcNextBuf hp :)
    · rename_i dr₂ hp
      exact (sameFile_of_precalcNextBuf hp).trans (writeToLoop_sameFile dr₂ _)
termination_by (dr.rank, dr.promises.length - dr.linkPosition + 1)
decreasing_by exact precalcNextBuf_decreasing _ _ ‹_›

theorem seekChunk_sameFile (dr : DagReader) (offset : Int) :
    SameFile dr (dr.seekChunk offset).1 := by
  rw [seekChunk]
  split
  · rename_i hp
    exact (sameFile_of_precalcNextBuf hp :)
  · rename_i dr₂ hp
    have h := sameFile_of_precalcNextBuf hp
    generalize bufSeek _ _ 0 = b
    obtain ⟨buf, n, err⟩ := b
    simp only
    split
    · exact h
    · split_ifs <;> exact h

theorem seek_sameFile (dr : DagReader) (offset whence : Int) :
    SameFile dr (dr.seek offset whence).1 := by
  have hset (offset : Int) : SameFile dr (dr.seek offset 0).1 := by
    rw [seek, if_pos rfl]
    split_ifs
    · exact ⟨rfl, rfl⟩
    · exact ⟨rfl, rfl⟩
    · exact seekChunk_sameFile dr offset
  by_cases h0 : whence = 0
  · exact h0 ▸ hset offset
  rw [seek, if_neg h0]
  split_ifs
  · exact hset _
  · exact hset _
  · exact ⟨rfl, rfl⟩

/-- The states that a sequence of `Read`, `WriteTo` and `Seek` calls reaches from `dr`. -/
inductive Reaches (dr : DagReader) : DagReader → Prop
  | refl : Reaches dr dr
  | read {dr' : DagReader} (k : Nat) : Reaches dr dr' → Reaches dr (dr'.read k).1
  | writeTo {dr' : DagReader} : Reaches dr dr' → Reaches dr dr'.writeTo.1
  | seek {dr' : DagReader} (offset whence : Int) :
      Reaches dr dr' → Reaches dr (dr'.seek offset whence).1

theorem Reaches.sameFile {dr dr' : DagReader} (h : Reaches dr dr') : SameFile dr dr' := by
  induction h with
  | refl => exact ⟨rfl, rfl⟩
  | read k _ ih => exact ih.trans (readLoop_sameFile _ k [])
  | writeTo _ ih => exact ih.trans (writeToLoop_sameFile _ [])
  | seek offset whence _ ih => exact ih.trans (seek_sameFile _ offset whence)

/-! ## Opening and seeking a chunk -/

/-- `precalcNextBuf` at a file child opens it: a File through a nested reader, a Raw as bytes. -/
theorem precalcNextBuf_of_isFile {dr : DagReader} {j : Nat} {c : Dag} {pbc : Data}
    (hj : dr.promises[j]? = some (.ok c)) (hc : c.isFile) (hcd : c.data.unmarshal = .ok pbc) :
    ∃ buf, { dr with linkPosition := j }.precalcNextBuf =
        ({ dr with buf, linkPosition := j + 1 }, none) ∧
      (pbc.type = .file ∧ buf = .dagReader (newDataFileReader c pbc) ∨
        pbc.type = .raw ∧ buf = newRSNCFromBytes c.content) := by
  obtain ⟨hlt, hget⟩ := List.getElem?_eq_some_iff.1 hj
  have hcontent := (Dag.content_of_isFile hc hcd).1
  rcases c with ⟨data, links⟩
  simp only [Dag.data_mk] at hcd
  simp only [Dag.isFile, hcd, Bool.or_eq_true, Bool.and_eq_true, decide_eq_true_eq] at hc
  unfold precalcNextBuf
  rw [dif_pos hlt]
  simp only [hget, Dag.data_mk, hcd]
  rcases hc with ⟨hraw, hlinks⟩ | ⟨hfile, -⟩
  · refine ⟨newRSNCFromBytes pbc.data, by simp [hraw], .inr ⟨hraw, ?_⟩⟩
    rw [hcontent, List.isEmpty_iff.1 hlinks]
    simp [Dag.contents]
  · exact ⟨_, by simp [hfile], .inl ⟨hfile, rfl⟩⟩

theorem bufSeek_newRSNCFromBytes (b : List UInt8) (left : Nat) :
    bufSeek (newRSNCFromBytes b) left 0 = (.rsnc ⟨b, left⟩, (left : Int), none) := by
  simp [newRSNCFromBytes, BytesReader.seek, if_neg (show ¬(left : Int) < 0 by omega)]

/-- `seekChunk` lands on the position when the chunk it opens seeks exactly the bytes left. -/
theorem seekChunk_of_bufSeek {dr : DagReader} {t : Int} {pos : Option Nat} {left : Int}
    {buf buf' : ReadSeekCloser DagReader}
    (hloc : locateChunk dr.pbdata.blocksizes 0 (t - dr.pbdata.data.length) = (pos, left))
    (hpre : { dr with linkPosition := pos.getD dr.linkPosition }.precalcNextBuf =
      ({ dr with buf, linkPosition := pos.getD dr.linkPosition + 1 }, none))
    (hseek : bufSeek buf left 0 = (buf', left, none)) :
    dr.seekChunk t =
      ({ dr with buf := buf', linkPosition := pos.getD dr.linkPosition + 1, offset := t }, t,
        none) := by
  rw [seekChunk]
  split
  · rename_i hp
    simp only [hloc, hpre] at hp
    cases hp
  · rename_i dr₂ hp
    simp only [hloc, hpre, Prod.mk.injEq] at hp
    obtain ⟨rfl, -⟩ := hp
    simp [hloc, hseek]

/-! ## Seeking within the file -/

/-- A `SEEK_SET` past the inline data and before the end opens the chunk holding it and seeks in. -/
theorem seek_set_chunk (f : Dag) {pb : Data} {dr : DagReader} (hf : f.isFile)
    (hs : f.sizesAgree) (hd : f.data.unmarshal = .ok pb) (hpb : dr.pbdata = pb)
    (hps : dr.promises = f.links) (hlen : f.content.length < 2 ^ 63) {t : Nat}
    (hin : pb.data.length < t) (hlt : t < f.content.length)
    (ih : ∀ c, .ok c ∈ f.links → c.isFile → c.sizesAgree → c.content.length < 2 ^ 63 →
      ∀ pbc, c.data.unmarshal = .ok pbc → ∀ left' : Nat, left' < c.content.length →
        ((newDataFileReader c pbc).seek left' 0).2 = ((left' : Int), none) ∧
          ((newDataFileReader c pbc).seek left' 0).1.stream = ⟨c.content.drop left', .eof⟩) :
    (dr.seek t 0).2 = ((t : Int), none) ∧ (dr.seek t 0).1.stream = ⟨f.content.drop t, .eof⟩ ∧
      (dr.seek t 0).1.offset = t := by
  obtain ⟨hc, hall⟩ := Dag.content_of_isFile hf hd
  subst hpb
  rw [seek, if_pos rfl, if_neg (by omega), if_neg (by exact_mod_cast hin.not_le)]
  obtain ⟨-, hbs, hsizes⟩ := Dag.sizesAgree_of_data hs hd
  have hclen : f.content.length = dr.pbdata.data.length + (Dag.contents f.links).length := by
    rw [hc, List.length_append]
  obtain ⟨j, c, left', hloc, hj, hleft', hle, hdrop⟩ :=
    locateChunk_contents f.links dr.pbdata.blocksizes 0 (t - dr.pbdata.data.length) hall hbs
      (by omega) (by omega)
  have hmem : .ok c ∈ f.links := List.getElem?_mem hj
  have hcf := Dag.isFile_of_mem hall hmem
  have hcl : c.content.length < 2 ^ 63 := by
    have := congrArg List.length hdrop
    simp only [List.length_drop, List.length_append] at this
    omega
  obtain ⟨pbc, hcd, -⟩ := newDagReader_of_isFile hcf
  obtain ⟨buf, hpre, hbuf⟩ :=
    precalcNextBuf_of_isFile (show dr.promises[j]? = some (.ok c) by rwa [hps]) hcf hcd
  have hseek : ∃ buf', bufSeek buf left' 0 = (buf', (left' : Int), none) ∧
      stream.bufStream buf' = ⟨c.content.drop left', .eof⟩ := by
    rcases hbuf with ⟨-, rfl⟩ | ⟨-, rfl⟩
    · obtain ⟨h₁, h₂⟩ := ih c hmem hcf (Dag.sizesAgree_of_mem hsizes hmem) hcl pbc hcd left' hleft'
      exact ⟨.dagReader ((newDataFileReader c pbc).seek left' 0).1,
        by rw [bufSeek_dagReader, h₁], h₂⟩
    · exact ⟨_, bufSeek_newRSNCFromBytes _ _, by simp [BytesReader.rest]⟩
  obtain ⟨buf', hbuf', hst⟩ := hseek
  have hsub : (t : Int) - dr.pbdata.data.length = ((t - dr.pbdata.data.length : Nat) : Int) := by
    omega
  have hft : f.content.drop t = (Dag.contents f.links).drop (t - dr.pbdata.data.length) := by
    rw [hc, List.drop_append_eq_append_drop,
      List.drop_eq_nil_of_le (show dr.pbdata.data.length ≤ t by omega), List.nil_append]
  rw [← hsub] at hloc
  rw [seekChunk_of_bufSeek hloc (by simpa using hpre) hbuf']
  refine ⟨rfl, ?_, rfl⟩
  rw [stream_eq]
  simp only [Option.getD_some, Nat.zero_add]
  rw [hst, hps, Dag.streamLinks_of_allFile _ (Dag.allFile_drop hall _),
    Yield.andThen_of_eof, ← hdrop, hft]

/-- A `SEEK_SET` inside the inline data or before the end lands there and streams from there. -/
theorem seek_set_of_isFile (f : Dag) {pb : Data} {dr : DagReader} (hf : f.isFile)
    (hs : f.sizesAgree) (hd : f.data.unmarshal = .ok pb) (hpb : dr.pbdata = pb)
    (hps : dr.promises = f.links) (hlen : f.content.length < 2 ^ 63) {t : Nat}
    (ht : t ≤ pb.data.length ∨ t < f.content.length) :
    (dr.seek t 0).2 = ((t : Int), none) ∧ (dr.seek t 0).1.stream = ⟨f.content.drop t, .eof⟩ ∧
      (dr.seek t 0).1.offset = t := by
  by_cases hin : t ≤ pb.data.length
  · -- inside the inline data: a fresh `bytes.Reader` from the position, and every link after it
    obtain ⟨hc, hall⟩ := Dag.content_of_isFile hf hd
    subst hpb
    rw [seek, if_pos rfl, if_neg (by omega), if_pos (by exact_mod_cast hin)]
    refine ⟨rfl, ?_, rfl⟩
    rw [stream_eq]
    simp [newRSNCFromBytes, BytesReader.rest, hps, Dag.streamLinks_of_allFile _ hall, hc,
      List.drop_append_of_le_length hin]
  · -- past it: the chunk holding the position, opened and sought into
    exact seek_set_chunk f hf hs hd hpb hps hlen (by omega) (ht.resolve_left hin)
      fun c hmem hcf hcs hcl pbc hcd left' hleft' =>
        (seek_set_of_isFile c hcf hcs hcd rfl rfl hcl (.inr hleft')).imp_right And.left
termination_by f.height
decreasing_by
  rw [Dag.height_eq f]
  have := Dag.height_le_heights hmem
  omega

/-- Past the end of the chunks the link position stays, and `Seek` reopens the chunk there. -/
theorem seek_past_chunks {dr : DagReader} {c : Dag} {pbc : Data} {t : Nat}
    (hpast : dr.pbdata.data.length + (dr.pbdata.blocksizes.map UInt64.toNat).sum ≤ t)
    (hin : dr.pbdata.data.length < t) (h63 : t < 2 ^ 63)
    (hj : dr.promises[dr.linkPosition]? = some (.ok c)) (hc : c.isFile)
    (hcd : c.data.unmarshal = .ok pbc) (hraw : pbc.type = .raw) :
    (dr.seek t 0).2 = ((t : Int), none) ∧
      (dr.seek t 0).1.stream =
        (⟨c.content.drop (t - dr.pbdata.data.length - (dr.pbdata.blocksizes.map UInt64.toNat).sum),
          .eof⟩ : Yield).andThen (Dag.streamLinks (dr.promises.drop (dr.linkPosition + 1))) ∧
      (dr.seek t 0).1.offset = t := by
  obtain ⟨buf, hpre, hbuf⟩ := precalcNextBuf_of_isFile hj hc hcd
  obtain ⟨-, rfl⟩ := hbuf.resolve_left fun h => by simp [hraw] at h
  have hloc := locateChunk_of_sum_le dr.pbdata.blocksizes 0 (t - dr.pbdata.data.length)
    (by omega) (by omega)
  have hsub : (t : Int) - dr.pbdata.data.length = ((t - dr.pbdata.data.length : Nat) : Int) := by
    omega
  rw [← hsub] at hloc
  rw [seek, if_pos rfl, if_neg (by omega), if_neg (by omega),
    seekChunk_of_bufSeek hloc hpre (bufSeek_newRSNCFromBytes _ _)]
  refine ⟨rfl, ?_, rfl⟩
  rw [stream_eq]
  simp [BytesReader.rest]

/-! ## Seeking from any state -/

/-- The position the spec gives `Seek(off, whence)`: from the start, the offset, or the end. -/
def seekTarget (offset filesize off whence : Int) : Option Int :=
  if whence = 0 then some off
  else if whence = 1 then some (offset + off)
  else if whence = 2 then some (filesize - off)
  else none

/-- Within the `int64` range every `whence` is a `SEEK_SET` to the spec's position. -/
theorem seek_eq_of_seekTarget {dr : DagReader} {off whence t : Int}
    (ht : seekTarget dr.offset dr.pbdata.filesize.toNat off whence = some t) (ht₀ : 0 ≤ t)
    (ht₁ : t < 2 ^ 63) (hfs : dr.pbdata.filesize.toNat < 2 ^ 63) :
    dr.seek off whence = dr.seek t 0 := by
  unfold seekTarget at ht
  split_ifs at ht with h₀ h₁ h₂ <;> cases ht
  · rw [h₀]
  · rw [seek, if_neg h₀, if_pos h₁, int64_of_mem (by omega) ht₁]
  · rw [seek, if_neg h₀, if_neg h₁, if_pos h₂, int64_natCast hfs, int64_of_mem (by omega) ht₁]

/-- From every reached state a `Seek` inside the file lands there, and `Read`s stream from it. -/
theorem seek_fileRoot {n f : Dag} {pb : Data} {dr₀ dr : DagReader} (h : n.fileRoot = some f)
    (hd : f.data.unmarshal = .ok pb) (hs : f.sizesAgree) (hfs : pb.filesize.toNat < 2 ^ 63)
    (h₀ : newDagReader n = .ok dr₀) (hr : Reaches dr₀ dr) {off whence t : Int}
    (ht : seekTarget dr.offset pb.filesize.toNat off whence = some t) (ht₀ : 0 ≤ t)
    (hin : t ≤ pb.data.length ∨ t < pb.filesize.toNat) :
    (dr.seek off whence).2 = (t, none) ∧ (dr.seek off whence).1.offset = t ∧
      ∀ ks, ((dr.seek off whence).1.reads ks).1 = expectedReads (f.content.drop t.toNat) ks ∧
        ((dr.seek off whence).1.reads ks).2.offset =
          t + returned (expectedReads (f.content.drop t.toNat) ks) ∧
        ((dr.seek off whence).1.reads ks).2.offset ≤ pb.filesize.toNat := by
  obtain ⟨hf, pb', hd', hdr⟩ := newDagReader_of_fileRoot h
  obtain rfl : pb = pb' := Except.ok.inj (hd.symm.trans hd')
  obtain rfl : dr₀ = newDataFileReader f pb := Except.ok.inj (h₀.symm.trans hdr)
  obtain ⟨hpb, hps⟩ := hr.sameFile
  have hlen := Dag.length_content hf hs hd
  have hdl : pb.data.length ≤ f.content.length := by
    rw [(Dag.content_of_isFile hf hd).1, List.length_append]
    omega
  obtain ⟨t, rfl⟩ := Int.eq_ofNat_of_zero_le ht₀
  rw [seek_eq_of_seekTarget (by rwa [hpb]) ht₀ (by omega) (by rwa [hpb])]
  obtain ⟨h₁, h₂, h₃⟩ := seek_set_of_isFile f (t := t) hf hs hd hpb hps (by omega)
    (by omega)
  refine ⟨h₁, h₃, fun ks => ?_⟩
  obtain ⟨hk₁, hk₂⟩ := reads_of_stream h₂ (by rw [h₃]; exact int64_natCast (by omega)) ks
  have hle := returned_expectedReads_le (f.content.drop t) ks
  rw [List.length_drop] at hle
  rw [h₃, int64_of_mem (by omega) (by omega)] at hk₂
  simp only [Int.toNat_natCast]
  exact ⟨hk₁, hk₂, by omega⟩

theorem seek_chunkedFile :
    ∃ dr, newDagReader Dag.chunkedFile = .ok dr ∧ (dr.seek 5 0).2 = (5, none) ∧
      ((dr.seek 5 0).1.reads [3]).1 = [([102, 103, 104], none)] := by
  have hdr : newDagReader Dag.chunkedFile =
      .ok (newDataFileReader Dag.chunkedFile ⟨.file, [], 11, [4, 4, 3]⟩) :=
    newDagReader_of_data rfl (.inr rfl)
  obtain ⟨h₁, -, h₃⟩ := @seek_fileRoot Dag.chunkedFile Dag.chunkedFile ⟨.file, [], 11, [4, 4, 3]⟩ _
    _ rfl rfl rfl (by decide) hdr .refl 5 0 5 rfl (by decide) (.inr (by decide))
  exact ⟨_, hdr, h₁, by rw [(h₃ [3]).1]; decide⟩

/-- On the spec's chunked file a `Seek` to the end or past it reopens the first chunk. -/
theorem seek_end_rereads :
    ∃ dr, newDagReader Dag.chunkedFile = .ok dr ∧
      (dr.seek 11 0).2 = (11, none) ∧
      ((dr.seek 11 0).1.reads [11]).1 =
        [([97, 98, 99, 100, 101, 102, 103, 104, 105, 106, 107], none)] ∧
      (dr.seek 100 0).2 = (100, none) ∧
      ((dr.seek 100 0).1.reads [11]).1 = [([101, 102, 103, 104, 105, 106, 107], some .eof)] := by
  let dr := newDataFileReader Dag.chunkedFile ⟨.file, [], 11, [4, 4, 3]⟩
  obtain ⟨h₁, h₂, h₃⟩ := @seek_past_chunks dr _ _ 11 (by decide) (by decide) (by decide) rfl rfl
    rfl rfl
  obtain ⟨h₄, h₅, h₆⟩ := @seek_past_chunks dr _ _ 100 (by decide) (by decide) (by decide) rfl rfl
    rfl rfl
  refine ⟨dr, newDagReader_of_data rfl (.inr rfl), h₁, ?_, h₄, ?_⟩
  · exact (@reads_of_stream _ [97, 98, 99, 100, 101, 102, 103, 104, 105, 106, 107]
      (h₂.trans (by decide)) (by rw [h₃]; rfl) [11]).1.trans (by decide)
  · exact (@reads_of_stream _ [101, 102, 103, 104, 105, 106, 107]
      (h₅.trans (by decide)) (by rw [h₆]; rfl) [11]).1.trans (by decide)

end DagReader

end GoIpfs
