import MegaBasterd.Core.Crypto
import MegaBasterd.Core.UploadRuns
import MegaBasterd.Library.Json

/-!
`core/chunks.py` and what rests on its plan: the number of chunks in closed
form, the guard of a declared size and the chunk that ends a file. The plan of
every size tiles the file, and the closed form counts it (`plan_tiles`).
-/

namespace MegaBasterd.ChunkPlan

open Library MegaBasterd.Chunks MegaBasterd.Crypto MegaBasterd.UploadRuns

/-! ## `chunk_count` -/

/-- The `for size_kb in CHUNK_SIZES_KB` loop of `chunk_count`, with what follows it. -/
def countFrom (fileSize : Nat) : List Nat → Nat → Nat → Nat
  | [], offset, count => count + (fileSize - offset + maxChunkSize - 1) / maxChunkSize
  | sizeKb :: rest, offset, count =>
    if fileSize ≤ offset then count
    else countFrom fileSize rest (offset + min (sizeKb * 1024) (fileSize - offset)) (count + 1)

def chunkCount (fileSize : Nat) : Nat := if fileSize = 0 then 0 else countFrom fileSize chunkSizesKb 0 0

/-- The chunks from an offset on, all but the last of 1 MiB. -/
theorem length_fullChunks (fileSize offset index : Nat) :
    (fullChunks fileSize offset index).length = (fileSize - offset + maxChunkSize - 1) / maxChunkSize := by
  induction offset, index using fullChunks.induct fileSize with
  | case1 offset index hlt actual ih =>
    rw [fullChunks, if_pos hlt]
    simp only [List.length_cons]
    rw [ih]
    simp only [actual, maxChunkSize]
    omega
  | case2 offset index hge =>
    rw [fullChunks, if_neg hge, Nat.sub_eq_zero_of_le (Nat.le_of_not_lt hge)]
    rfl

theorem countFrom_eq (fileSize : Nat) (kbs : List Nat) (offset index count : Nat) :
    countFrom fileSize kbs offset count = count + (growingChunks fileSize kbs offset index).length := by
  induction kbs generalizing offset index count with
  | nil => rw [countFrom, growingChunks, length_fullChunks]
  | cons kb kbs ih =>
    rw [countFrom, growingChunks]
    by_cases hdone : fileSize ≤ offset
    · rw [if_pos hdone, if_pos hdone]
      rfl
    · rw [if_neg hdone, if_neg hdone, ih _ (index + 1)]
      simp only [List.length_cons]
      omega

theorem chunkCount_eq (fileSize : Nat) : chunkCount fileSize = (iterChunks fileSize).length := by
  unfold chunkCount
  split
  · rename_i hzero
    rw [hzero]
    rfl
  · rw [countFrom_eq fileSize chunkSizesKb 0 0 0, Nat.zero_add]
    rfl

/-! ## The limit -/

/-- Within the growing chunks the count is at most theirs. -/
theorem countFrom_le (fileSize : Nat) (kbs : List Nat) (offset count : Nat)
    (h : fileSize ≤ offset + (kbs.map (· * 1024)).sum) :
    countFrom fileSize kbs offset count ≤ count + kbs.length := by
  induction kbs generalizing offset count with
  | nil =>
    have hnone : fileSize - offset = 0 := Nat.sub_eq_zero_of_le h
    rw [countFrom, hnone]
    exact Nat.le_refl _
  | cons kb kbs ih =>
    rw [List.map_cons, List.sum_cons] at h
    rw [countFrom, List.length_cons]
    split
    · omega
    · have := ih (offset + min (kb * 1024) (fileSize - offset)) (count + 1) (by omega)
      omega

/-- Behind them every started MiB counts. -/
theorem countFrom_of_le (fileSize : Nat) (kbs : List Nat) (hkbs : ∀ kb ∈ kbs, 0 < kb) (offset count : Nat)
    (h : offset + (kbs.map (· * 1024)).sum ≤ fileSize) : countFrom fileSize kbs offset count =
      count + kbs.length +
        (fileSize - (offset + (kbs.map (· * 1024)).sum) + maxChunkSize - 1) / maxChunkSize := by
  induction kbs generalizing offset count with
  | nil => rw [countFrom, List.map_nil, List.sum_nil, List.length_nil, Nat.add_zero, Nat.add_zero]
  | cons kb kbs ih =>
    rw [List.forall_mem_cons] at hkbs
    rw [List.map_cons, List.sum_cons] at h ⊢
    rw [countFrom, if_neg (by omega), Nat.min_eq_left (by omega), ih hkbs.2 _ _ (by omega), List.length_cons,
      Nat.add_assoc offset]
    omega

theorem chunkCount_le_iff (fileSize : Nat) : fileSize ≤ maxFileSize ↔ chunkCount fileSize ≤ maxChunks := by
  have hramp : (chunkSizesKb.map (· * 1024)).sum = 4718592 := by decide
  have hlimit : maxFileSize = 4718592 + 199992 * 1048576 := by decide
  unfold chunkCount
  split
  · omega
  · rcases Nat.le_total fileSize 4718592 with hle | hle
    · have := countFrom_le fileSize chunkSizesKb 0 0 (by omega)
      rw [show chunkSizesKb.length = 8 from rfl] at this
      rw [hlimit, maxChunks]
      omega
    · rw [countFrom_of_le fileSize chunkSizesKb (by decide) 0 0 (by omega), hramp, hlimit, maxChunks, maxChunkSize,
        show chunkSizesKb.length = 8 from rfl]
      omega

/-! ## `_validate_declared_size` -/

inductive DeclaredSizeError
  | notInteger (fileSize : Json)
  | negative (fileSize : Int)
  | tooLarge (fileSize : Int)

def validateDeclaredSize : Json → Except DeclaredSizeError Nat
  | .int fileSize =>
    if fileSize < 0 then .error (.negative fileSize)
    else if maxFileSize < fileSize.toNat ∨ maxChunks < chunkCount fileSize.toNat then .error (.tooLarge fileSize)
    else .ok fileSize.toNat
  | fileSize => .error (.notInteger fileSize)

/-! ## The plan -/

/-- A plan covers a file from its first byte to its last, in chunks that follow one another. -/
structure Plan (total : Nat) (cs : List Chunk) : Prop where
  indices : cs.map Chunk.index = List.range cs.length
  first : ∀ c ∈ cs.head?, c.offset = 0
  contiguous : cs.IsChain fun c d => d.offset = c.stop
  covers : ∀ p, (∃ c ∈ cs, c.offset ≤ p ∧ p < c.stop) ↔ p < total
  sizes : ∀ c ∈ cs, 1 ≤ c.size ∧ c.size ≤ 1024 * 1024
  counter : ∀ c ∈ cs, c.offset % 16 = 0 ∧ ctrOffsetToCounter c.offset = .ok (c.offset / 16)

section Tiling

variable {total offset index : Nat} {cs : List Chunk}

theorem indices_of_tiles (h : Tiles total offset index cs) : cs.map Chunk.index = List.range' index cs.length := by
  induction h with
  | done _ => rfl
  | next _ _ _ _ _ ih => rw [List.map_cons, List.length_cons, List.range'_succ, ih]

theorem head_of_tiles (h : Tiles total offset index cs) : ∀ c ∈ cs.head?, c.offset = offset := by
  cases h with
  | done _ => exact nofun
  | next => exact fun c hc => Option.some.inj hc ▸ rfl

theorem contiguous_of_tiles (h : Tiles total offset index cs) : cs.IsChain fun c d => d.offset = c.stop := by
  induction h with
  | done _ => exact .nil
  | next _ _ _ _ htail ih =>
    cases htail with
    | done _ => exact .singleton _
    | next => exact .cons_cons rfl ih

/-- Only the last chunk reaches the end. -/
theorem final_of_tiles (h : Tiles total offset index cs) :
    cs.countP (fun c => isFinalChunk c total) = if offset = total then 0 else 1 := by
  induction h with
  | done hend => rw [if_pos hend, List.countP_nil]
  | @next offset index size cs hpos _ _ hcut _ ih =>
    rw [List.countP_cons, ih, if_neg (by omega : ¬ offset = total), isFinalChunk]
    by_cases hlast : offset + size = total
    · rw [if_pos hlast, if_pos (by simp [hlast])]
    · rw [if_neg hlast, if_neg (by simpa using by omega)]

end Tiling

theorem plan_of_tiles {total : Nat} {cs : List Chunk} (h : Tiles total 0 0 cs) : Plan total cs where
  indices := by rw [indices_of_tiles h, List.range_eq_range']
  first := head_of_tiles h
  contiguous := contiguous_of_tiles h
  covers p := by
    constructor
    · rintro ⟨c, hc, -, hp⟩
      have hcut := (h.mem hc).2.2.2.2.2
      exact Nat.lt_of_lt_of_le hp hcut
    · exact fun hp => h.covers (Nat.zero_le p) hp
  sizes c hc := by
    obtain ⟨-, -, hpos, hmax, -⟩ := h.mem hc
    exact ⟨hpos, hmax⟩
  counter c hc := by
    have h16 : c.offset % 16 = 0 := Nat.mod_eq_zero_of_dvd (h.mem hc).2.2.2.2.1
    exact ⟨h16, by rw [ctrOffsetToCounter, if_neg (not_not.mpr h16)]⟩

/-- The plan of a file of any size, its number of chunks, the size limit and the chunk that ends the file. -/
theorem plan_tiles (n : Nat) : Plan n (iterChunks n) ∧ chunkCount n = (iterChunks n).length ∧
    (n ≤ maxFileSize ↔ chunkCount n ≤ maxChunks) ∧
    (iterChunks n).countP (fun c => isFinalChunk c n) = if n = 0 then 0 else 1 := by
  have htiles := iterChunks_tiles n
  refine ⟨plan_of_tiles htiles, chunkCount_eq n, chunkCount_le_iff n, ?_⟩
  rw [final_of_tiles htiles]
  exact if_congr eq_comm rfl rfl

end MegaBasterd.ChunkPlan
