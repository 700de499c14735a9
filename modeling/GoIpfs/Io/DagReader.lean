import GoIpfs.Io.BytesReader
import GoIpfs.Unixfs.Format

/-!
# The DAG reader

`unixfs/io/dagreader.go`. A reader reads its node's inline data, then each child in link order,
through a `bytes.Reader` or a nested `DagReader`. What the `DAGService`'s promises deliver is part
of the input (`Dag`), and `Close`, which only cancels them, changes nothing. The loops terminate
by `DagReader.rank`.
-/

namespace GoIpfs

/-- A node as a reader fetches it: its payload and what the promise of each link delivers. -/
inductive Dag where
  | mk (data : Payload) (links : List (Except Error Dag))

namespace Dag

/-- The node's payload. -/
def data : Dag → Payload
  | mk d _ => d

/-- What the promises for the node's links deliver. -/
def links : Dag → List (Except Error Dag)
  | mk _ l => l

/-- The height of a DAG; `heights` is the largest height among the fetched children. -/
def height : Dag → Nat
  | mk _ links => heights links + 1
where
  heights : List (Except Error Dag) → Nat
    | [] => 0
    | .ok c :: cs => max c.height (heights cs)
    | .error _ :: cs => heights cs

@[simp] theorem data_mk (d : Payload) (l : List (Except Error Dag)) : (mk d l).data = d := rfl

@[simp] theorem links_mk (d : Payload) (l : List (Except Error Dag)) : (mk d l).links = l := rfl

theorem height_eq (n : Dag) : n.height = height.heights n.links + 1 := by
  cases n; rfl

theorem height_le_heights {c : Dag} {ps : List (Except Error Dag)} (h : .ok c ∈ ps) :
    c.height ≤ height.heights ps := by
  induction ps with
  | nil => simp at h
  | cons p ps ih =>
    rcases List.mem_cons.1 h with rfl | h
    · exact le_max_left _ _
    · have := ih h
      cases p <;> simp only [height.heights] <;> omega

end Dag

/-- A reader's buffer: a `bytes.Reader` of inline data (`readSeekNopCloser`) or a nested reader. -/
inductive ReadSeekCloser (α : Type) where
  | rsnc (r : BytesReader)
  | dagReader (dr : α)

/-- `DagReader`, without the node, service and context fields that nothing modelled reads. -/
structure DagReader where
  /-- the decoded payload of the node being read -/
  pbdata : Data
  /-- the current buffer -/
  buf : ReadSeekCloser DagReader
  /-- what the promise of each link of the node delivers -/
  promises : List (Except Error Dag)
  /-- the index of the next link to read -/
  linkPosition : Nat
  /-- the read head within the file, an `int64` -/
  offset : Int

/-- `NewRSNCFromBytes(b)`. -/
def newRSNCFromBytes (b : List UInt8) : ReadSeekCloser DagReader := .rsnc ⟨b, 0⟩

/-- `newDataFileReader(ctx, n, pb, serv)`. -/
def newDataFileReader (n : Dag) (pb : Data) : DagReader :=
  { pbdata := pb, buf := newRSNCFromBytes pb.data, promises := n.links, linkPosition := 0,
    offset := 0 }

/-- `NewDagReader(ctx, n, serv)`. -/
def newDagReader : Dag → Except Error DagReader
  | n@(.mk data links) =>
    match data.unmarshal with
    | .error e => .error e
    | .ok pb =>
      match pb.type with
      | .directory => .error (.new "this dag node is a directory")
      | .raw | .file => .ok (newDataFileReader n pb)
      | .metadata =>
        match links with
        | [] => .error (.new "incorrectly formatted metadata object")
        | .error e :: _ => .error e
        | .ok child :: _ => newDagReader child
      | .other _ => .error .unrecognizedType

theorem newDagReader_of_data {data : Payload} {links : List (Except Error Dag)} {pb : Data}
    (hd : data.unmarshal = .ok pb) (htype : pb.type = .raw ∨ pb.type = .file) :
    newDagReader (.mk data links) = .ok (newDataFileReader (.mk data links) pb) := by
  rcases htype with htype | htype <;> rcases links with _ | ⟨_ | c, ls⟩ <;>
    simp [newDagReader, hd, htype]

theorem newDagReader_metadata {data : Payload} {c : Dag} {links : List (Except Error Dag)}
    {pb : Data} (hd : data.unmarshal = .ok pb) (htype : pb.type = .metadata) :
    newDagReader (.mk data (.ok c :: links)) = newDagReader c := by
  simp [newDagReader, hd, htype]

namespace DagReader

/-- The measure `Read`, `WriteTo` and `Seek` decrease: the depth of buffers and children. -/
def rank : DagReader → Nat
  | ⟨_, buf, ps, _, _⟩ => max (bufRank buf) (Dag.height.heights ps) + 1
where
  bufRank : ReadSeekCloser DagReader → Nat
    | .rsnc _ => 0
    | .dagReader r => r.rank

/-- `dr.precalcNextBuf()`: open the next link as the buffer. -/
def precalcNextBuf (dr : DagReader) : DagReader × Option Error :=
  if h : dr.linkPosition < dr.promises.length then
    match dr.promises[dr.linkPosition] with
    | .error e => (dr, some e)
    | .ok nxt =>
      let dr := { dr with linkPosition := dr.linkPosition + 1 }
      match nxt.data.unmarshal with
      | .error e => (dr, some e)
      | .ok pb =>
        match pb.type with
        | .directory => (dr, some .invalidDirLocation)
        | .file => ({ dr with buf := .dagReader (newDataFileReader nxt pb) }, none)
        | .raw => ({ dr with buf := newRSNCFromBytes pb.data }, none)
        | .metadata => (dr, some (.new "Shouldnt have had metadata object inside file"))
        | .other _ => (dr, some .unrecognizedType)
  else (dr, some .eof)

/-- `dr.Size()`. -/
def size (dr : DagReader) : Int := int64 dr.pbdata.filesize.toNat

/-- `dr.Close()`. -/
def close (_dr : DagReader) : Option Error := none

theorem rank_eq (dr : DagReader) :
    dr.rank = max (rank.bufRank dr.buf) (Dag.height.heights dr.promises) + 1 := by
  cases dr; rfl

@[simp] theorem bufRank_dagReader (r : DagReader) : rank.bufRank (.dagReader r) = r.rank := rfl

theorem rank_newDataFileReader (n : Dag) (pb : Data) :
    (newDataFileReader n pb).rank = n.height := by
  rw [Dag.height_eq, rank_eq]
  simp [newDataFileReader, newRSNCFromBytes, rank.bufRank]

theorem bufRank_lt_rank (dr : DagReader) : rank.bufRank dr.buf < dr.rank := by
  rw [rank_eq]; omega

theorem heights_lt_rank (dr : DagReader) : Dag.height.heights dr.promises < dr.rank := by
  rw [rank_eq]; omega

/-- A successful `precalcNextBuf` moves to the next link, and its rank forgets the old buffer. -/
theorem precalcNextBuf_ok {dr dr' : DagReader} (h : dr.precalcNextBuf = (dr', none)) :
    dr.linkPosition < dr.promises.length ∧ dr'.linkPosition = dr.linkPosition + 1 ∧
      dr'.promises = dr.promises ∧ dr'.rank ≤ Dag.height.heights dr.promises + 1 := by
  unfold precalcNextBuf at h
  split at h
  · rename_i hlt
    split at h
    · cases h
    · rename_i nxt hnxt
      have hc : nxt.height ≤ Dag.height.heights dr.promises :=
        Dag.height_le_heights (hnxt ▸ List.getElem_mem hlt)
      split at h
      · cases h
      · split at h <;> cases h
        · refine ⟨hlt, rfl, rfl, ?_⟩
          rw [rank_eq]
          simp only [bufRank_dagReader, rank_newDataFileReader]
          omega
        · exact ⟨hlt, rfl, rfl, by rw [rank_eq]; simp [newRSNCFromBytes, rank.bufRank]⟩
  · cases h

/-- `precalcNextBuf` leaves the reader as it was, or moves on with a new buffer. -/
theorem precalcNextBuf_fst (dr : DagReader) :
    dr.precalcNextBuf.1 = dr ∨
      ∃ buf, dr.precalcNextBuf.1 = { dr with buf, linkPosition := dr.linkPosition + 1 } := by
  unfold precalcNextBuf
  split
  · split
    · exact .inl rfl
    · split
      · exact .inr ⟨dr.buf, rfl⟩
      · split <;> first | exact .inl rfl | exact .inr ⟨_, rfl⟩
  · exact .inl rfl

/-- A successful `precalcNextBuf` decreases the measure of the loops of `Read` and `WriteTo`. -/
theorem precalcNextBuf_decreasing {dr dr' : DagReader} (buf : ReadSeekCloser DagReader)
    (offset : Int) (h : ({ dr with buf, offset } : DagReader).precalcNextBuf = (dr', none)) :
    Prod.Lex (· < ·) (· < ·) (dr'.rank, dr'.promises.length - dr'.linkPosition + 1)
      (dr.rank, dr.promises.length - dr.linkPosition + 1) := by
  obtain ⟨hlt, hpos, hps, hrank⟩ := precalcNextBuf_ok h
  have := heights_lt_rank dr
  simp only at hlt hpos hps hrank
  rcases Nat.lt_or_ge dr'.rank dr.rank with hr | hr
  · exact .left _ _ hr
  · rw [show dr'.rank = dr.rank by omega, hps, hpos]
    exact .right _ (by omega)

theorem bufRank_lt_of_le {buf : ReadSeekCloser DagReader} {dr : DagReader} {x : Nat} (hx : 0 < x)
    (h : rank.bufRank buf < dr.rank) :
    Prod.Lex (· < ·) (· < ·) (rank.bufRank buf + 1, 0) (dr.rank, x) := by
  rcases Nat.lt_or_ge (rank.bufRank buf + 1) dr.rank with hr | hr
  · exact .left _ _ hr
  · rw [show rank.bufRank buf + 1 = dr.rank by omega]
    exact .right _ hx

mutual

/-- `buf.Read(b)` with `len(b) = m`, dispatched on the buffer's type. -/
def bufRead : ReadSeekCloser DagReader → Nat → ReadSeekCloser DagReader × List UInt8 × Option Error
  | .rsnc r, m => let (r, out, err) := r.read m; (.rsnc r, out, err)
  | .dagReader r, m => let (r, out, err) := r.readLoop m []; (.dagReader r, out, err)
termination_by buf => (rank.bufRank buf + 1, 0)
decreasing_by exact .left _ _ (Nat.lt_succ_self _)

/-- `Read`'s loop; `k` is `len(b)` and `acc` what `b[:total]` holds. -/
def readLoop (dr : DagReader) (k : Nat) (acc : List UInt8) :
    DagReader × List UInt8 × Option Error :=
  let (buf, out, err) := bufRead dr.buf (k - acc.length)
  let total := acc ++ out
  let dr₁ := { dr with buf, offset := int64 (dr.offset + out.length) }
  if err ≠ none ∧ err ≠ some .eof then (dr₁, total, err)
  else if total.length = k then (dr₁, total, none)
  else
    match _h : dr₁.precalcNextBuf with
    | (dr₂, some e) => (dr₂, total, some e)
    | (dr₂, none) => dr₂.readLoop k total
termination_by (dr.rank, dr.promises.length - dr.linkPosition + 1)
decreasing_by
  · exact bufRank_lt_of_le (Nat.succ_pos _) (bufRank_lt_rank dr)
  · exact precalcNextBuf_decreasing _ _ _h

end

/-- `dr.Read(b)` with `len(b) = k`: the new reader, the bytes read into `b`, and the error. -/
def read (dr : DagReader) (k : Nat) : DagReader × List UInt8 × Option Error := dr.readLoop k []

mutual

/-- `buf.WriteTo(w)`, dispatched on the buffer's type. -/
def bufWriteTo : ReadSeekCloser DagReader → ReadSeekCloser DagReader × List UInt8 × Option Error
  | .rsnc r => let (r, out, err) := r.writeTo; (.rsnc r, out, err)
  | .dagReader r => let (r, out, err) := r.writeToLoop []; (.dagReader r, out, err)
termination_by buf => (rank.bufRank buf + 1, 0)
decreasing_by exact .left _ _ (Nat.lt_succ_self _)

/-- `WriteTo`'s loop, where running out of links ends cleanly; `acc` is what was written. -/
def writeToLoop (dr : DagReader) (acc : List UInt8) : DagReader × List UInt8 × Option Error :=
  let (buf, out, err) := bufWriteTo dr.buf
  let total := acc ++ out
  let dr₁ := { dr with buf, offset := int64 (dr.offset + out.length) }
  if err ≠ none ∧ err ≠ some .eof then (dr₁, total, err)
  else
    match _h : dr₁.precalcNextBuf with
    | (dr₂, some e) => if e = .eof then (dr₂, total, none) else (dr₂, total, some e)
    | (dr₂, none) => dr₂.writeToLoop total
termination_by (dr.rank, dr.promises.length - dr.linkPosition + 1)
decreasing_by
  · exact bufRank_lt_of_le (Nat.succ_pos _) (bufRank_lt_rank dr)
  · exact precalcNextBuf_decreasing _ _ _h

end

/-- `dr.WriteTo(w)` for a writer that takes every byte. -/
def writeTo (dr : DagReader) : DagReader × List UInt8 × Int × Option Error :=
  let (dr, out, err) := dr.writeToLoop []
  (dr, out, int64 out.length, err)

theorem writeTo_eq (dr : DagReader) :
    dr.writeTo = ((dr.writeToLoop []).1, (dr.writeToLoop []).2.1,
      int64 (dr.writeToLoop []).2.1.length, (dr.writeToLoop []).2.2) :=
  rfl

/-- The chunk loop of `Seek` from chunk `i`, with `left` bytes still to skip. -/
def locateChunk : List UInt64 → Nat → Int → Option Nat × Int
  | [], _, left => (none, left)
  | b :: bs, i, left =>
    if uint64 left < b.toNat then (some i, left)
    else locateChunk bs (i + 1) (int64 (left - int64 b.toNat))

mutual

/-- `buf.Seek(offset, whence)`, dispatched on the buffer's type. -/
def bufSeek : ReadSeekCloser DagReader → Int → Int → ReadSeekCloser DagReader × Int × Option Error
  | .rsnc r, offset, whence => let (r, n, err) := r.seek offset whence; (.rsnc r, n, err)
  | .dagReader r, offset, whence => let (r, n, err) := r.seek offset whence; (.dagReader r, n, err)
termination_by buf => (rank.bufRank buf + 1, 0)
decreasing_by exact .left _ _ (Nat.lt_succ_self _)

/-- The `SEEK_SET` case past the inline data; the link position moves only if a chunk is found. -/
def seekChunk (dr : DagReader) (offset : Int) : DagReader × Int × Option Error :=
  let pb := dr.pbdata
  let lc := locateChunk pb.blocksizes 0 (offset - pb.data.length)
  let left := lc.2
  match _hp : { dr with linkPosition := lc.1.getD dr.linkPosition }.precalcNextBuf with
  | (dr₂, some e) => (dr₂, 0, some e)
  | (dr₂, none) =>
    let (buf, n, err) := bufSeek dr₂.buf left 0
    let dr₃ := { dr₂ with buf }
    match err with
    | some e => (dr₃, -1, some e)
    | none =>
      if int64 (left - n) ≠ 0 then (dr₃, -1, some (.new "failed to seek properly"))
      else ({ dr₃ with offset }, offset, none)
termination_by (dr.rank, 1)
decreasing_by
  have h₂ := (precalcNextBuf_ok _hp).2.2.2
  have := bufRank_lt_rank dr₂
  have := heights_lt_rank dr
  exact bufRank_lt_of_le Nat.one_pos (by simp only at h₂; omega)

/-- `dr.Seek(offset, whence)`; a Go length is below `2 ^ 63`, so `int64(len(pb.Data))` is exact. -/
def seek (dr : DagReader) (offset whence : Int) : DagReader × Int × Option Error :=
  if whence = 0 then
    if offset < 0 then (dr, -1, some (.new "Invalid offset"))
    else if offset ≤ dr.pbdata.data.length then
      let buf := newRSNCFromBytes (dr.pbdata.data.drop offset.toNat)
      ({ dr with buf, linkPosition := 0, offset }, offset, none)
    else dr.seekChunk offset
  else if whence = 1 then dr.seek (int64 (dr.offset + offset)) 0
  else if whence = 2 then dr.seek (int64 (int64 dr.pbdata.filesize.toNat - offset)) 0
  else (dr, 0, some (.new "invalid whence"))
termination_by (dr.rank, if whence = 0 then 2 else 3)
decreasing_by
  all_goals simp_wf
  · exact .right _ (by split <;> omega)
  all_goals exact .right _ (by simp [*])

end

@[simp] theorem bufSeek_rsnc (r : BytesReader) (offset whence : Int) :
    bufSeek (.rsnc r) offset whence = (.rsnc (r.seek offset whence).1, (r.seek offset whence).2) := by
  rw [bufSeek]

@[simp] theorem bufSeek_dagReader (r : DagReader) (offset whence : Int) :
    bufSeek (.dagReader r) offset whence =
      (.dagReader (r.seek offset whence).1, (r.seek offset whence).2) := by
  rw [bufSeek]

end DagReader

end GoIpfs
