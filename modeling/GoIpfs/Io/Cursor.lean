import GoIpfs.Io.Seek

/-!
# The reader is a cursor

The spec's reader is a position in the content (`Cursor`). A `DagReader` opened on a file root
whose sizes agree refines it over every sequence of calls the cursor describes
(`calls_refine_cursor`), by a simulation kept by each call (`Sim.call`, `Sim.calls`); a target at
the end of the chunks or past it is left out (`seek_past_chunks`).
-/

namespace GoIpfs

namespace DagReader

/-! ## `WriteTo` drains the reader -/

mutual

theorem bufWriteTo_drains (buf : ReadSeekCloser DagReader) (h : (stream.bufStream buf).err = .eof) :
    stream.bufStream (bufWriteTo buf).1 = ⟨[], .eof⟩ := by
  match buf with
  | .rsnc r =>
    rw [bufWriteTo]
    simp [r.writeTo_rest]
  | .dagReader r =>
    rw [bufWriteTo]
    exact writeToLoop_drains r [] h
termination_by (rank.bufRank buf + 1, 0)
decreasing_by exact .left _ _ (Nat.lt_succ_self _)

/-- A `WriteTo` loop on a reader whose stream ends cleanly leaves nothing to stream. -/
theorem writeToLoop_drains (dr : DagReader) (acc : List UInt8) (h : dr.stream.err = .eof) :
    (dr.writeToLoop acc).1.stream = ⟨[], .eof⟩ := by
  rw [writeToLoop]
  have hs := stream_eq dr
  have hbe : (stream.bufStream dr.buf).err = .eof := by
    by_contra hne
    rw [hs, Yield.andThen_of_ne hne] at h
    exact hne h
  have hb := bufWriteTo_spec dr.buf
  have hd := bufWriteTo_drains dr.buf hbe
  generalize bufWriteTo dr.buf = b at hb hd ⊢
  obtain ⟨buf, out, err⟩ := b
  have hl := streamLinks_drop_linkPosition
    ({ dr with buf, offset := int64 (dr.offset + out.length) })
  rw [hs, Yield.andThen_of_eq_eof hbe] at h
  simp only at hb hd hl h ⊢
  rw [if_pos hbe] at hb
  obtain ⟨-, rfl⟩ := hb
  rw [if_neg (by simp)]
  split
  · rename_i dr₂ e hp
    rw [hp] at hl
    simp only at hl
    rw [hl] at h
    subst h
    rw [if_pos rfl, precalcNextBuf_eof hp, stream_with_buf, hd, hl]
    rfl
  · rename_i dr₂ hp
    rw [hp] at hl
    simp only at hl
    exact writeToLoop_drains dr₂ _ (hl ▸ h)
termination_by (dr.rank, dr.promises.length - dr.linkPosition + 1)
decreasing_by
  · exact bufRank_lt_of_le (Nat.succ_pos _) (bufRank_lt_rank dr)
  · exact precalcNextBuf_decreasing _ _ ‹_›

end

/-! ## Seeking to any target -/

/-- Within the `int64` range every `whence` is a `SEEK_SET` to the spec's position. -/
theorem seek_eq_seek_set {dr : DagReader} {off whence t : Int}
    (ht : seekTarget dr.offset dr.pbdata.filesize.toNat off whence = some t) (hlo : -2 ^ 63 ≤ t)
    (hhi : t < 2 ^ 63) (hfs : dr.pbdata.filesize.toNat < 2 ^ 63) :
    dr.seek off whence = dr.seek t 0 := by
  unfold seekTarget at ht
  split_ifs at ht with h₀ h₁ h₂ <;> cases ht
  · rw [h₀]
  · rw [seek, if_neg h₀, if_pos h₁, int64_of_mem hlo hhi]
  · rw [seek, if_neg h₀, if_neg h₁, if_pos h₂, int64_natCast hfs, int64_of_mem hlo hhi]

/-- `Seek` with an unknown `whence` fails and changes nothing. -/
theorem seek_invalid_whence {dr : DagReader} {off whence : Int}
    (ht : seekTarget dr.offset dr.pbdata.filesize.toNat off whence = none) :
    dr.seek off whence = (dr, 0, some (.new "invalid whence")) := by
  unfold seekTarget at ht
  split_ifs at ht with h₀ h₁ h₂
  rw [seek, if_neg h₀, if_neg h₁, if_neg h₂]

/-- A `SEEK_SET` to a negative offset fails and changes nothing. -/
theorem seek_negative {dr : DagReader} {t : Int} (ht : t < 0) :
    dr.seek t 0 = (dr, -1, some (.new "Invalid offset")) := by
  rw [seek, if_pos rfl, if_pos ht]

end DagReader

/-! ## Calls -/

/-- A call on a reader: `Read` of a length, `WriteTo`, `Seek`, or `Size`. -/
inductive Op where
  | read (k : Nat)
  | writeTo
  | seek (offset whence : Int)
  | size
  deriving DecidableEq, Repr

/-- What a call returns. -/
inductive Ret where
  | read (out : List UInt8) (err : Option Error)
  | writeTo (out : List UInt8) (n : Int) (err : Option Error)
  | seek (pos : Int) (err : Option Error)
  | size (n : Int)
  deriving DecidableEq, Repr

namespace DagReader

/-- One call on a reader. -/
def call (dr : DagReader) : Op → DagReader × Ret
  | .read k => let r := dr.read k; (r.1, .read r.2.1 r.2.2)
  | .writeTo => let r := dr.writeTo; (r.1, .writeTo r.2.1 r.2.2.1 r.2.2.2)
  | .seek offset whence => let r := dr.seek offset whence; (r.1, .seek r.2.1 r.2.2)
  | .size => (dr, .size dr.size)

/-- Calls in order, each on the reader the one before left. -/
def calls (dr : DagReader) : List Op → List Ret × DagReader
  | [] => ([], dr)
  | op :: ops =>
    let r := dr.call op
    let rs := r.1.calls ops
    (r.2 :: rs.1, rs.2)

end DagReader

/-! ## The cursor -/

/-- The spec's reader: the content of a file and a position in it, never past its end. -/
structure Cursor where
  content : List UInt8
  pos : Nat
  pos_le : pos ≤ content.length

namespace Cursor

/-- A cursor at the start of `content`. -/
def start (content : List UInt8) : Cursor := ⟨content, 0, Nat.zero_le _⟩

/-- The bytes after the position. -/
def rest (c : Cursor) : List UInt8 := c.content.drop c.pos

/-- `Read(b)` with `len(b) = k`: the next bytes, with end-of-stream when they do not fill `b`. -/
def read (c : Cursor) (k : Nat) : Cursor × List UInt8 × Option Error :=
  (⟨c.content, c.pos + (c.rest.take k).length, by
    have := c.pos_le
    simp only [rest, List.length_take, List.length_drop]
    omega⟩,
    c.rest.take k, if k ≤ c.rest.length then none else some .eof)

/-- `WriteTo(w)`: all the bytes after the position; the cursor moves to the end. -/
def writeTo (c : Cursor) : Cursor × List UInt8 × Int × Option Error :=
  (⟨c.content, c.content.length, le_rfl⟩, c.rest, c.rest.length, none)

/-- `Seek` to the spec's target, described to the start or inside the file and for its errors. -/
def seek (c : Cursor) (offset whence : Int) : Option (Cursor × Int × Option Error) :=
  match DagReader.seekTarget c.pos c.content.length offset whence with
  | none => some (c, 0, some (.new "invalid whence"))
  | some t =>
    if t < 0 then
      if -2 ^ 63 ≤ t then some (c, -1, some (.new "Invalid offset")) else none
    else if h : t = 0 ∨ t < c.content.length then
      some (⟨c.content, t.toNat, by omega⟩, t, none)
    else none

theorem rest_read (c : Cursor) (k : Nat) : (c.read k).1.rest = c.rest.drop k := by
  simp only [read, rest, List.drop_drop, List.length_take, List.length_drop]
  by_cases hk : k ≤ c.content.length - c.pos
  · rw [min_eq_left hk, Nat.add_comm]
  · rw [List.drop_eq_nil_of_le (by omega), List.drop_eq_nil_of_le (by omega)]

theorem rest_writeTo (c : Cursor) : c.writeTo.1.rest = [] := by
  simp [writeTo, rest]

/-- One call on the cursor, when the spec describes it. -/
def call (c : Cursor) : Op → Option (Cursor × Ret)
  | .read k => let r := c.read k; some (r.1, .read r.2.1 r.2.2)
  | .writeTo => let r := c.writeTo; some (r.1, .writeTo r.2.1 r.2.2.1 r.2.2.2)
  | .seek offset whence => (c.seek offset whence).map fun r => (r.1, .seek r.2.1 r.2.2)
  | .size => some (c, .size c.content.length)

/-- Calls in order, as long as the spec describes each. -/
def calls (c : Cursor) : List Op → Option (List Ret × Cursor)
  | [] => some ([], c)
  | op :: ops => do
    let (c', r) ← c.call op
    let (rs, c'') ← c'.calls ops
    pure (r :: rs, c'')

end Cursor

/-! ## The simulation -/

/-- The reader `dr` of `f` is at `c`: it streams the content from `c`, at that offset. -/
structure Sim (f : Dag) (pb : Data) (dr : DagReader) (c : Cursor) : Prop where
  content : c.content = f.content
  pbdata : dr.pbdata = pb
  promises : dr.promises = f.links
  stream : dr.stream = ⟨c.rest, .eof⟩
  offset : dr.offset = c.pos

namespace Sim

open DagReader

variable {f : Dag} {pb : Data} (hf : f.isFile) (hs : f.sizesAgree)
  (hd : f.data.unmarshal = .ok pb) (hlen : f.content.length < 2 ^ 63)
  {dr : DagReader} {c : Cursor}

include hlen in
/-- A position of the cursor is a Go `int64`. -/
theorem int64_pos (h : Sim f pb dr c) {p : Nat}
    (hp : p ≤ c.content.length) : int64 p = p :=
  int64_natCast (by rw [h.content] at hp; omega)

include hlen in
theorem read (h : Sim f pb dr c) (k : Nat) :
    Sim f pb (dr.read k).1 (c.read k).1 ∧ (dr.read k).2 = (c.read k).2 := by
  obtain ⟨hrd, hst, hoff⟩ := read_of_stream h.stream k
  have hsf := readLoop_sameFile dr k []
  refine ⟨⟨h.content, hsf.1.trans h.pbdata, hsf.2.trans h.promises, ?_, ?_⟩, hrd⟩
  · rw [hst, Cursor.rest_read]
  · rw [hoff, h.offset]
    exact_mod_cast h.int64_pos hlen (c.read k).1.pos_le

include hlen in
theorem writeTo (h : Sim f pb dr c) :
    Sim f pb dr.writeTo.1 c.writeTo.1 ∧ dr.writeTo.2 = c.writeTo.2 := by
  obtain ⟨w₁, w₂, w₃⟩ := dr.writeToLoop_spec []
  have hsf := writeToLoop_sameFile dr []
  have hrest : c.pos + c.rest.length = c.content.length := by
    have := c.pos_le
    simp only [Cursor.rest, List.length_drop]
    omega
  rw [h.stream] at w₁ w₂ w₃
  rw [writeTo_eq]
  refine ⟨⟨h.content, hsf.1.trans h.pbdata, hsf.2.trans h.promises, ?_, ?_⟩, ?_⟩
  · rw [writeToLoop_drains dr [] (by rw [h.stream]), Cursor.rest_writeTo]
  · rw [w₃, h.offset]
    show int64 ((c.pos : Int) + c.rest.length) = (c.content.length : Int)
    rw [← hrest]
    exact_mod_cast h.int64_pos hlen hrest.le
  · simp only [w₁, w₂, List.nil_append, if_true, Cursor.writeTo]
    rw [h.int64_pos hlen (p := c.rest.length) (by omega)]

include hf hs hd hlen in
theorem seek (h : Sim f pb dr c) {off whence : Int} {c' : Cursor} {pos : Int}
    {err : Option Error} (hc : c.seek off whence = some (c', pos, err)) :
    Sim f pb (dr.seek off whence).1 c' ∧ (dr.seek off whence).2 = (pos, err) := by
  have hfs : dr.pbdata.filesize.toNat = c.content.length := by
    rw [h.pbdata, h.content, Dag.length_content hf hs hd]
  have htarget : seekTarget dr.offset dr.pbdata.filesize.toNat off whence =
      seekTarget c.pos c.content.length off whence := by
    rw [h.offset, hfs]
  rw [← h.content] at hlen
  unfold Cursor.seek at hc
  rw [← htarget] at hc
  split at hc
  · rename_i ht
    cases hc
    rw [seek_invalid_whence ht]
    exact ⟨h, rfl⟩
  · rename_i t ht
    split_ifs at hc with hneg hlo hin <;> cases hc
    · -- a negative target: an error, and nothing moves
      rw [seek_eq_seek_set ht hlo (by omega) (by omega), seek_negative hneg]
      exact ⟨h, rfl⟩
    · -- the start or a position inside the file
      obtain ⟨n, rfl⟩ := Int.eq_ofNat_of_zero_le (Int.not_lt.1 hneg)
      have hn : n ≤ pb.data.length ∨ n < f.content.length := by
        rcases hin with hn | hn
        · exact .inl (by omega)
        · exact .inr (by rw [← h.content]; exact_mod_cast hn)
      rw [seek_eq_seek_set ht (by omega) (by omega) (by omega)]
      obtain ⟨h₁, h₂, h₃⟩ := seek_set_of_isFile f (t := n) hf hs hd h.pbdata h.promises
        (by rw [← h.content]; exact hlen) hn
      have hsf := seek_sameFile dr n 0
      refine ⟨⟨h.content, hsf.1.trans h.pbdata, hsf.2.trans h.promises, ?_, ?_⟩, h₁⟩
      · rw [h₂, ← h.content]
        rfl
      · rw [h₃]
        simp

include hf hs hd hlen in
theorem size (h : Sim f pb dr c) : dr.size = c.content.length := by
  rw [DagReader.size, h.pbdata, ← Dag.length_content hf hs hd, ← h.content]
  exact h.int64_pos hlen le_rfl

include hf hs hd hlen in
/-- The step lemma: a described call returns on the reader what it returns on the cursor. -/
theorem call (h : Sim f pb dr c) {op : Op} {c' : Cursor} {r : Ret}
    (hc : c.call op = some (c', r)) : Sim f pb (dr.call op).1 c' ∧ (dr.call op).2 = r := by
  cases op with
  | read k =>
    cases hc
    obtain ⟨h₁, h₂⟩ := h.read hlen k
    exact ⟨h₁, by simp only [DagReader.call, h₂]⟩
  | writeTo =>
    cases hc
    obtain ⟨h₁, h₂⟩ := h.writeTo hlen
    exact ⟨h₁, by simp only [DagReader.call, h₂]⟩
  | seek off whence =>
    obtain ⟨⟨c₁, pos, err⟩, hs', he⟩ := Option.map_eq_some'.1 hc
    cases he
    obtain ⟨h₁, h₂⟩ := h.seek hf hs hd hlen hs'
    exact ⟨h₁, by simp only [DagReader.call, h₂]⟩
  | size =>
    cases hc
    exact ⟨h, by rw [DagReader.call, h.size hf hs hd hlen]⟩

include hf hs hd hlen in
/-- The run lemma: over every described run of calls the reader returns what the cursor does. -/
theorem calls (h : Sim f pb dr c) {ops : List Op} {rs : List Ret} {c' : Cursor}
    (hc : c.calls ops = some (rs, c')) :
    Sim f pb (dr.calls ops).2 c' ∧ (dr.calls ops).1 = rs := by
  induction ops generalizing dr c rs with
  | nil =>
    cases hc
    exact ⟨h, rfl⟩
  | cons op ops ih =>
    obtain ⟨⟨c₁, r⟩, h₁, hc⟩ := Option.bind_eq_some.1 hc
    obtain ⟨⟨rs', c₂⟩, h₂, hc⟩ := Option.bind_eq_some.1 hc
    cases hc
    obtain ⟨hs₁, hr⟩ := h.call hf hs hd hlen h₁
    obtain ⟨hs₂, hrs⟩ := ih hs₁ h₂
    exact ⟨hs₂, by rw [DagReader.calls, hr, hrs]⟩

end Sim

/-- The reader `NewDagReader` opens on a file root below `2 ^ 63` bytes refines the cursor. -/
theorem calls_refine_cursor {n f : Dag} (h : n.fileRoot = some f) (hs : f.sizesAgree)
    (hlen : f.content.length < 2 ^ 63) :
    ∃ dr, newDagReader n = .ok dr ∧ ∀ ops rs c,
      (Cursor.start f.content).calls ops = some (rs, c) → (dr.calls ops).1 = rs := by
  obtain ⟨hf, pb, hd, hdr⟩ := newDagReader_of_fileRoot h
  have h₀ : Sim f pb (newDataFileReader f pb) (Cursor.start f.content) :=
    ⟨rfl, rfl, rfl, stream_newDataFileReader_of_isFile hf hd, rfl⟩
  exact ⟨_, hdr, fun _ _ _ hc => (h₀.calls hf hs hd hlen hc).2⟩

/-- On the spec's chunked file: a read, a seek from the end, a write, a seek, a read, `Size`. -/
theorem calls_refine_cursor_chunkedFile :
    Dag.chunkedFile.fileRoot = some Dag.chunkedFile ∧ Dag.chunkedFile.sizesAgree ∧
      Dag.chunkedFile.content.length < 2 ^ 63 ∧ ∃ dr, newDagReader Dag.chunkedFile = .ok dr ∧
        (dr.calls [.read 4, .seek 3 2, .writeTo, .seek 2 0, .read 3, .size]).1 =
          [.read [97, 98, 99, 100] none, .seek 8 none, .writeTo [105, 106, 107] 3 none,
            .seek 2 none, .read [99, 100, 101] none, .size 11] := by
  obtain ⟨dr, hdr, hcalls⟩ := calls_refine_cursor (n := Dag.chunkedFile) rfl (by decide)
    (by decide)
  exact ⟨rfl, by decide, by decide, dr, hdr, hcalls _ _ _ rfl⟩

end GoIpfs
