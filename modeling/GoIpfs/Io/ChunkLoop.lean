import GoIpfs.Io.Content

/-!
# The chunk loop of `Seek`

The sizes are `uint64` and what is left an `int64`; from a target below `2 ^ 63` every conversion
the loop makes is exact (`locateChunk_cons_exact`), so it computes exact prefix sums of the sizes
(`locateChunk_exact`). Over a file DAG it stops at the chunk holding the position
(`locateChunk_contents`), and past the end of the chunks at none (`locateChunk_of_sum_le`).
-/

namespace GoIpfs

namespace DagReader

/-- `S[0] + … + S[i-1]`: the sizes of the chunks before chunk `i`. -/
def sizesBefore (S : List UInt64) (i : Nat) : Nat := ((S.take i).map UInt64.toNat).sum

@[simp] theorem sizesBefore_zero (S : List UInt64) : sizesBefore S 0 = 0 := by
  simp [sizesBefore]

@[simp] theorem sizesBefore_cons_succ (b : UInt64) (S : List UInt64) (i : Nat) :
    sizesBefore (b :: S) (i + 1) = b.toNat + sizesBefore S i := by
  simp [sizesBefore]

theorem sizesBefore_succ : ∀ {S : List UInt64} {i : Nat} {b : UInt64}, S[i]? = some b →
    sizesBefore S (i + 1) = sizesBefore S i + b.toNat
  | [], _, _, h => by simp at h
  | c :: S, 0, b, h => by
    simp only [List.getElem?_cons_zero, Option.some.injEq] at h
    subst h
    simp
  | c :: S, i + 1, b, h => by
    rw [sizesBefore_cons_succ, sizesBefore_cons_succ, sizesBefore_succ (by simpa using h)]
    omega

/-- One pass of the chunk loop from `left` in `[0, 2 ^ 63)` converts and subtracts exactly. -/
theorem locateChunk_cons_exact (b : UInt64) (bs : List UInt64) (i : Nat) {left : Int}
    (h0 : 0 ≤ left) (h63 : left < 2 ^ 63) :
    (uint64 left : Int) = left ∧
      (b.toNat ≤ left → int64 b.toNat = b.toNat ∧ int64 (left - int64 b.toNat) = left - b.toNat) ∧
      locateChunk (b :: bs) i left =
        if left < b.toNat then (some i, left) else locateChunk bs (i + 1) (left - b.toNat) := by
  have hu : (uint64 left : Int) = left := uint64_of_mem h0 (by omega)
  have hx : b.toNat ≤ left →
      int64 b.toNat = b.toNat ∧ int64 (left - int64 b.toNat) = left - b.toNat := fun hb =>
    have hb' : int64 b.toNat = b.toNat := int64_natCast (by omega)
    ⟨hb', by rw [hb', int64_of_mem (by omega) (by omega)]⟩
  refine ⟨hu, hx, ?_⟩
  rw [locateChunk.eq_2]
  by_cases hlt : left < b.toNat
  · rw [if_pos (by omega), if_pos hlt]
  · rw [if_neg (by omega), if_neg hlt, (hx (by omega)).2]

/-- The loop reaches every chunk whose preceding chunks fit in `R`, with `R` less their sizes. -/
theorem locateChunk_reaches (S : List UInt64) {R : Int} (h63 : R < 2 ^ 63) :
    ∀ i ≤ S.length, (sizesBefore S i : Int) ≤ R →
      locateChunk S 0 R = locateChunk (S.drop i) i (R - sizesBefore S i)
  | 0, _, _ => by simp
  | i + 1, hi, h => by
    have hlt : i < S.length := by omega
    have hs := sizesBefore_succ (List.getElem?_eq_getElem hlt)
    rw [locateChunk_reaches S h63 i (by omega) (by omega), List.drop_eq_getElem_cons hlt,
      (locateChunk_cons_exact _ _ i (by omega) (by omega)).2.2, if_neg (by omega), hs]
    congr 1
    omega

/-- The chunks before `j` each fit in what is left before them, from `left`. -/
def Passes (S : List UInt64) (left : Int) (j : Nat) : Prop :=
  ∀ k < j, ∀ b, S[k]? = some b → b.toNat ≤ left - sizesBefore S k

theorem passes_cons {b : UInt64} {bs : List UInt64} {left : Int} {j : Nat} (hb : b.toNat ≤ left)
    (h : Passes bs (left - b.toNat) j) : Passes (b :: bs) left (j + 1) := by
  intro k hk c hc
  cases k with
  | zero =>
    simp only [List.getElem?_cons_zero, Option.some.injEq] at hc
    subst hc
    simpa using hb
  | succ k => simpa [Int.sub_sub] using h k (by omega) c (by simpa using hc)

/-- The loop stops at the first chunk exceeding what is left, or runs off the end. -/
theorem locateChunk_stops : ∀ (S : List UInt64) (i : Nat) (left : Int), 0 ≤ left →
    left < 2 ^ 63 →
    (∃ j b, S[j]? = some b ∧ left - sizesBefore S j < b.toNat ∧ Passes S left j ∧
        locateChunk S i left = (some (i + j), left - sizesBefore S j)) ∨
      (Passes S left S.length ∧ locateChunk S i left = (none, left - sizesBefore S S.length))
  | [], i, left, _, _ => .inr ⟨fun _ h => absurd h (Nat.not_lt_zero _), by simp [locateChunk]⟩
  | b :: bs, i, left, h0, h63 => by
    rw [(locateChunk_cons_exact b bs i h0 h63).2.2]
    by_cases hlt : left < b.toNat
    · -- the first chunk holds the position
      rw [if_pos hlt]
      exact .inl ⟨0, b, List.getElem?_cons_zero, by simpa using hlt,
        fun _ h => absurd h (Nat.not_lt_zero _), by simp⟩
    · -- the loop passes the first chunk and goes on with the rest
      rw [if_neg hlt]
      rcases locateChunk_stops bs (i + 1) (left - b.toNat) (by omega) (by omega) with
        ⟨j, c, hj, hlt', hpass, hloc⟩ | ⟨hpass, hloc⟩
      · refine .inl ⟨j + 1, c, by rwa [List.getElem?_cons_succ], by simp; omega,
          passes_cons (by omega) hpass, ?_⟩
        rw [hloc, sizesBefore_cons_succ, show i + 1 + j = i + (j + 1) by omega,
          show left - b.toNat - sizesBefore bs j = left - ((b.toNat + sizesBefore bs j : Nat) : Int)
            by omega]
      · refine .inr ⟨passes_cons (by omega) hpass, ?_⟩
        rw [hloc, List.length_cons, sizesBefore_cons_succ,
          show left - b.toNat - sizesBefore bs bs.length =
            left - ((b.toNat + sizesBefore bs bs.length : Nat) : Int) by omega]

/-- The chunk loop of `Seek(offset, SEEK_SET)` computes exact prefix sums of any blocksizes. -/
theorem locateChunk_exact (S : List UInt64) (D : Nat) (offset : Int) (hD : D < offset)
    (h63 : offset < 2 ^ 63) :
    (∀ i ≤ S.length, (sizesBefore S i : Int) ≤ offset - D →
      0 ≤ offset - D - sizesBefore S i ∧ offset - D - sizesBefore S i ≤ offset - D ∧
      locateChunk S 0 (offset - D) = locateChunk (S.drop i) i (offset - D - sizesBefore S i) ∧
      (uint64 (offset - D - sizesBefore S i) : Int) = offset - D - sizesBefore S i ∧
      ∀ b, S[i]? = some b → b.toNat ≤ offset - D - sizesBefore S i →
        int64 b.toNat = b.toNat ∧
          int64 (offset - D - sizesBefore S i - int64 b.toNat) =
            offset - D - sizesBefore S (i + 1)) ∧
    ((∃ i b, S[i]? = some b ∧ offset - D - sizesBefore S i < b.toNat ∧
        (∀ j < i, ∀ c, S[j]? = some c → c.toNat ≤ offset - D - sizesBefore S j) ∧
        locateChunk S 0 (offset - D) = (some i, offset - D - sizesBefore S i)) ∨
      ((∀ j < S.length, ∀ c, S[j]? = some c → c.toNat ≤ offset - D - sizesBefore S j) ∧
        locateChunk S 0 (offset - D) = (none, offset - D - sizesBefore S S.length))) := by
  refine ⟨fun i hi hle => ?_, ?_⟩
  · have h0 : 0 ≤ offset - D - sizesBefore S i := by omega
    refine ⟨h0, by omega, locateChunk_reaches S (by omega) i hi hle,
      (locateChunk_cons_exact 0 [] i h0 (by omega)).1, fun b hb hle' => ?_⟩
    obtain ⟨hx₁, hx₂⟩ := (locateChunk_cons_exact b [] i h0 (by omega)).2.1 hle'
    refine ⟨hx₁, ?_⟩
    rw [hx₂, sizesBefore_succ hb]
    omega
  · rcases locateChunk_stops S 0 (offset - D) (by omega) (by omega) with
      ⟨j, b, hj, hlt, hpass, hloc⟩ | h
    · exact .inl ⟨j, b, hj, hlt, hpass, by rw [hloc, Nat.zero_add]⟩
    · exact .inr h

/-- Seeking 97 bytes in over the sizes 5, `2 ^ 63 + 1` and 7 stops at chunk 1 with 92 left. -/
theorem locateChunk_exact_huge :
    locateChunk [5, 9223372036854775809, 7] 0 (100 - (3 : Nat)) =
        locateChunk [9223372036854775809, 7] 1
          (100 - (3 : Nat) - sizesBefore [5, 9223372036854775809, 7] 1) ∧
      locateChunk [9223372036854775809, 7] 1 92 = (some 1, 92) :=
  ⟨((locateChunk_exact [5, 9223372036854775809, 7] 3 100 (by decide) (by decide)).1 1
    (by decide) (by decide)).2.2.1, by decide⟩

/-- Over fetched file children the loop stops at the child holding the position. -/
theorem locateChunk_contents : ∀ (links : List (Except Error Dag)) (bs : List UInt64) (i left : Nat),
    Dag.allFile links → bs.map UInt64.toNat = Dag.childLengths links →
    left < (Dag.contents links).length → left < 2 ^ 63 →
    ∃ j c, ∃ left' : Nat, locateChunk bs i left = (some (i + j), (left' : Int)) ∧
      links[j]? = some (.ok c) ∧ left' < c.content.length ∧ left' ≤ left ∧
      (Dag.contents links).drop left = c.content.drop left' ++ Dag.contents (links.drop (j + 1))
  | [], _, _, _, _, _, h, _ => by simp [Dag.contents] at h
  | .error _ :: _, _, _, _, hf, _, _, _ => by simp [Dag.allFile] at hf
  | .ok c :: cs, [], _, _, _, hbs, _, _ => by simp [Dag.childLengths] at hbs
  | .ok c :: cs, b :: bs, i, left, hf, hbs, hlt, h63 => by
    simp only [Dag.allFile, Bool.and_eq_true] at hf
    simp only [Dag.childLengths, List.map_cons, List.cons.injEq] at hbs
    obtain ⟨hb, hbs⟩ := hbs
    simp only [Dag.contents, List.length_append] at hlt ⊢
    rw [(locateChunk_cons_exact b bs i (by omega) (by omega)).2.2, hb]
    by_cases hin : left < c.content.length
    · refine ⟨0, c, left, by simp [hin], List.getElem?_cons_zero, hin, le_rfl, ?_⟩
      rw [List.drop_append_of_le_length hin.le]
      rfl
    · obtain ⟨j, c', left', hloc, hj, hlt', hle, hdrop⟩ :=
        locateChunk_contents cs bs (i + 1) (left - c.content.length) hf.2 hbs (by omega) (by omega)
      refine ⟨j + 1, c', left', ?_, by rwa [List.getElem?_cons_succ], hlt', by omega, ?_⟩
      · rw [if_neg (by omega), show (left : Int) - c.content.length =
          ((left - c.content.length : Nat) : Int) by omega, hloc, Nat.add_right_comm, Nat.add_assoc]
      · rw [List.drop_append_eq_append_drop, List.drop_eq_nil_of_le (by omega), hdrop]
        rfl

/-- Past the content of the chunks the chunk loop finds none, and leaves what is left past them. -/
theorem locateChunk_of_sum_le : ∀ (bs : List UInt64) (i left : Nat),
    (bs.map UInt64.toNat).sum ≤ left → left < 2 ^ 63 →
    locateChunk bs i left = (none, ((left - (bs.map UInt64.toNat).sum : Nat) : Int))
  | [], _, _, _, _ => by simp [locateChunk]
  | b :: bs, i, left, h, h63 => by
    simp only [List.map_cons, List.sum_cons] at h ⊢
    rw [(locateChunk_cons_exact b bs i (by omega) (by omega)).2.2, if_neg (by omega),
      show (left : Int) - b.toNat = ((left - b.toNat : Nat) : Int) by omega,
      locateChunk_of_sum_le bs (i + 1) (left - b.toNat) (by omega) (by omega), Nat.sub_sub]

end DagReader

end GoIpfs
