import MegaBasterd.Library.BlockMode

/-!
`core/chunks.py`: the chunk plan of a file (eight growing chunks, then chunks
of 1 MiB) and the chunk CBC-MACs. The plan of every size tiles the file:
`iterChunks_tiles` gives contiguous chunks with consecutive indices, each
nonempty, at most 1 MiB and at a multiple of 16. Every later module uses the
plan through `Tiles` only.
-/

namespace MegaBasterd.Chunks

open Library.BigEndian Library.BlockMode

/-! ## The chunk plan -/

def chunkSizesKb : List Nat := [128, 256, 384, 512, 640, 768, 896, 1024]

def maxChunkSize : Nat := 1024 * 1024

structure Chunk where
  index : Nat
  offset : Nat
  size : Nat
  deriving DecidableEq, Repr

def Chunk.stop (c : Chunk) : Nat := c.offset + c.size

/-- The `while offset < file_size` loop of `iter_chunks`. -/
def fullChunks (fileSize offset index : Nat) : List Chunk :=
  if offset < fileSize then
    let actual := min maxChunkSize (fileSize - offset)
    ⟨index, offset, actual⟩ :: fullChunks fileSize (offset + actual) (index + 1)
  else []
termination_by fileSize - offset
decreasing_by
  have : 0 < maxChunkSize := by decide
  omega

/-- The `for size_kb in CHUNK_SIZES_KB` loop, continued by `fullChunks`. -/
def growingChunks (fileSize : Nat) : List Nat → Nat → Nat → List Chunk
  | [], offset, index => fullChunks fileSize offset index
  | sizeKb :: rest, offset, index =>
    if fileSize ≤ offset then []
    else
      let actual := min (sizeKb * 1024) (fileSize - offset)
      ⟨index, offset, actual⟩ :: growingChunks fileSize rest (offset + actual) (index + 1)

def iterChunks (fileSize : Nat) : List Chunk := growingChunks fileSize chunkSizesKb 0 0

def maxChunks : Nat := 200000

def maxFileSize : Nat :=
  (chunkSizesKb.map (· * 1024)).sum + (maxChunks - chunkSizesKb.length) * maxChunkSize

/-! ## The plan tiles the file -/

/-- `cs` covers exactly `[offset, total)` with consecutive indices from `index` on. -/
inductive Tiles (total : Nat) : Nat → Nat → List Chunk → Prop
  | done {offset index : Nat} : offset = total → Tiles total offset index []
  | next {offset index size : Nat} {cs : List Chunk} :
      0 < size → size ≤ maxChunkSize → 16 ∣ offset → offset + size ≤ total →
      Tiles total (offset + size) (index + 1) cs →
      Tiles total offset index (⟨index, offset, size⟩ :: cs)

/-- A full chunk keeps the offset on a block boundary; a cut one ends the file. -/
theorem aligned_next {total offset step : Nat} (ho : 16 ∣ offset) (hs : 16 ∣ step) :
    16 ∣ offset + min step (total - offset) ∨ offset + min step (total - offset) = total ∨
      total ≤ offset := by
  rcases Nat.le_total step (total - offset) with h | h
  · rw [Nat.min_eq_left h]
    exact Or.inl (Nat.dvd_add ho hs)
  · rw [Nat.min_eq_right h]
    omega

theorem fullChunks_tiles (total offset index : Nat) (hle : offset ≤ total)
    (ho : 16 ∣ offset ∨ offset = total) : Tiles total offset index (fullChunks total offset index) := by
  induction offset, index using fullChunks.induct total with
  | case1 offset index hlt actual ih =>
    rw [fullChunks, if_pos hlt]
    have h16 : 16 ∣ offset := by omega
    have hpos : 0 < actual := by simp only [actual, maxChunkSize]; omega
    have hcut : offset + actual ≤ total := by simp only [actual]; omega
    refine .next hpos (Nat.min_le_left _ _) h16 hcut (ih hcut ?_)
    rcases @aligned_next total _ _ h16 (by decide : 16 ∣ maxChunkSize) with h | h | h
    · exact Or.inl h
    · exact Or.inr h
    · omega
  | case2 offset index hge =>
    rw [fullChunks, if_neg hge]
    exact .done (by omega)

theorem growingChunks_tiles (total : Nat) (kbs : List Nat)
    (hkb : ∀ kb ∈ kbs, 0 < kb ∧ kb * 1024 ≤ maxChunkSize) (offset index : Nat)
    (hle : offset ≤ total) (ho : 16 ∣ offset ∨ offset = total) :
    Tiles total offset index (growingChunks total kbs offset index) := by
  induction kbs generalizing offset index with
  | nil => exact fullChunks_tiles total offset index hle ho
  | cons kb kbs ih =>
    rw [growingChunks]
    split
    · exact .done (by omega)
    · have h16 : 16 ∣ offset := by omega
      obtain ⟨hkb0, hkbmax⟩ := hkb kb (List.mem_cons_self ..)
      have hcut : offset + min (kb * 1024) (total - offset) ≤ total := by omega
      refine .next (by omega) (by omega) h16 hcut
        (ih (fun k hk => hkb k (List.mem_cons_of_mem _ hk)) _ _ hcut ?_)
      rcases @aligned_next total _ _ h16 (by omega : 16 ∣ kb * 1024) with h | h | h
      · exact Or.inl h
      · exact Or.inr h
      · omega

/-- The chunk plan of every size tiles the file. -/
theorem iterChunks_tiles (n : Nat) : Tiles n 0 0 (iterChunks n) :=
  growingChunks_tiles n chunkSizesKb (by decide) 0 0 (Nat.zero_le n) (Or.inl (Nat.dvd_zero 16))

namespace Tiles

variable {total offset index : Nat} {cs : List Chunk}

/-- What the plan says of each of its chunks. -/
theorem mem (h : Tiles total offset index cs) {c : Chunk} (hc : c ∈ cs) :
    index ≤ c.index ∧ offset ≤ c.offset ∧ 0 < c.size ∧ c.size ≤ maxChunkSize ∧ 16 ∣ c.offset ∧
      c.offset + c.size ≤ total := by
  induction h with
  | done _ => simp at hc
  | next hpos hmax h16 hcut _ ih =>
    rcases List.mem_cons.mp hc with rfl | hc
    · exact ⟨Nat.le_refl _, Nat.le_refl _, hpos, hmax, h16, hcut⟩
    · obtain ⟨h₁, h₂, h₃⟩ := ih hc
      exact ⟨by omega, by omega, h₃⟩

/-- Two chunks that share a byte are one chunk. -/
theorem eq_of_overlap (h : Tiles total offset index cs) {c d : Chunk} (hc : c ∈ cs) (hd : d ∈ cs)
    {p : Nat} (hcp : c.offset ≤ p ∧ p < c.offset + c.size)
    (hdp : d.offset ≤ p ∧ p < d.offset + d.size) : c = d := by
  induction h with
  | done _ => simp at hc
  | next _ _ _ _ htail ih =>
    rcases List.mem_cons.mp hc with rfl | hc <;> rcases List.mem_cons.mp hd with rfl | hd
    · rfl
    · have := (htail.mem hd).2.1
      simp only at hcp
      omega
    · have := (htail.mem hc).2.1
      simp only at hdp
      omega
    · exact ih hc hd

/-- A chunk is known by its index. -/
theorem eq_of_index (h : Tiles total offset index cs) {c d : Chunk} (hc : c ∈ cs) (hd : d ∈ cs)
    (hi : c.index = d.index) : c = d := by
  induction h with
  | done _ => simp at hc
  | next _ _ _ _ htail ih =>
    rcases List.mem_cons.mp hc with rfl | hc <;> rcases List.mem_cons.mp hd with rfl | hd
    · rfl
    · have := (htail.mem hd).1
      simp only at hi
      omega
    · have := (htail.mem hc).1
      simp only at hi
      omega
    · exact ih hc hd

/-- Every byte from `offset` on lies in a chunk. -/
theorem covers (h : Tiles total offset index cs) {p : Nat} (hp : offset ≤ p) (hpt : p < total) :
    ∃ c ∈ cs, c.offset ≤ p ∧ p < c.offset + c.size := by
  induction h with
  | done h => omega
  | @next offset index size cs hpos _ _ _ _ ih =>
    by_cases hlt : p < offset + size
    · exact ⟨⟨index, offset, size⟩, List.mem_cons_self .., hp, hlt⟩
    · obtain ⟨c, hc, hcp⟩ := ih (by omega)
      exact ⟨c, List.mem_cons_of_mem _ hc, hcp⟩

theorem index_sub_le (h : Tiles total offset index cs) {c : Chunk} (hc : c ∈ cs) :
    c.index - index ≤ c.offset - offset := by
  induction h with
  | done _ => simp at hc
  | next hpos _ _ _ htail ih =>
    rcases List.mem_cons.mp hc with rfl | hc
    · simp
    · have := ih hc
      have := (htail.mem hc).2.1
      omega

end Tiles

/-! ## Reading a chunk -/

/-- `f.seek(offset); f.read(size)`. -/
def readAt (content : Bytes) (offset size : Nat) : Bytes := (content.drop offset).take size

def readChunk (content : Bytes) (c : Chunk) : Bytes := readAt content c.offset c.size

theorem length_readAt {content : Bytes} {offset size : Nat} (h : offset + size ≤ content.length) :
    (readAt content offset size).length = size := by
  rw [readAt, List.length_take, List.length_drop]
  omega

/-! ## Chunk MACs -/

/-- The block function standing for AES under a key. -/
structure BlockCipher where
  enc : Bytes → Bytes → Bytes
  length_enc : ∀ key block, block.length = 16 → (enc key block).length = 16

/-- XOR with the key, a block function small enough to compute with. -/
def xorCipher : BlockCipher where
  enc key block := block.mapIdx fun i b => b ^^^ key.getD i 0
  length_enc key block h := by simp [h]

variable (E : BlockCipher)

def zeros (n : Nat) : Bytes := List.replicate n 0

/-- Zero padding to a multiple of 16 bytes. -/
def pad16 (bs : Bytes) : Bytes := bs ++ zeros ((16 - bs.length % 16) % 16)

/-- `chunk_mac`: the last block of CBC under the key from `nonce || nonce`. -/
def chunkMac (plaintext aesKey nonce : Bytes) : Bytes :=
  if plaintext.length = 0 then zeros 16
  else
    let padded := pad16 plaintext
    (cbcEncrypt (E.enc aesKey) (nonce ++ nonce) (blocksOf 16 (padded.length / 16) padded)).getLastD []

/-- The loop of `combine_chunk_macs`; `none` where `zip(..., strict=True)` raises. -/
def combineFrom (aesKey : Bytes) : Bytes → List Bytes → Option Bytes
  | state, [] => some state
  | state, mac :: macs =>
    if mac.length = state.length then
      combineFrom aesKey (E.enc aesKey (xorBytes (zeros 16) (xorBytes state mac))) macs
    else none

def combineChunkMacs (chunkMacs : List Bytes) (aesKey : Bytes) : Option Bytes :=
  combineFrom E aesKey (zeros 16) chunkMacs

@[simp] theorem length_zeros (n : Nat) : (zeros n).length = n := by simp [zeros]

theorem pad16_dvd (bs : Bytes) : 16 ∣ (pad16 bs).length := by
  rw [pad16, List.length_append, length_zeros]
  omega

theorem chunkMac_length (plaintext aesKey nonce : Bytes) (hn : nonce.length = 8) :
    (chunkMac E plaintext aesKey nonce).length = 16 := by
  unfold chunkMac
  split
  · simp
  · rename_i hne
    simp only
    obtain ⟨k, hk⟩ := pad16_dvd plaintext
    have hpos : 0 < k := by
      have : plaintext.length ≤ (pad16 plaintext).length := by simp [pad16]
      omega
    rw [hk, Nat.mul_div_cancel_left k (by decide : 0 < 16)]
    have hmem : ∀ c ∈ cbcEncrypt (E.enc aesKey) (nonce ++ nonce) (blocksOf 16 k (pad16 plaintext)),
        c.length = 16 := fun c hc =>
      length_of_mem_cbcEncrypt (E.length_enc aesKey) (by simp [hn])
        (fun b hb => length_of_mem_blocksOf (Nat.le_of_eq hk.symm) hb) hc
    have hlen : (cbcEncrypt (E.enc aesKey) (nonce ++ nonce) (blocksOf 16 k (pad16 plaintext))).length
        = k := by simp
    generalize cbcEncrypt (E.enc aesKey) (nonce ++ nonce) (blocksOf 16 k (pad16 plaintext)) = cs at *
    cases cs with
    | nil => simp at hlen; omega
    | cons c cs =>
      rw [List.getLastD_cons]
      exact hmem _ List.getLastD_mem_cons

theorem combineFrom_some (aesKey : Bytes) {macs : List Bytes} (hm : ∀ m ∈ macs, m.length = 16)
    {state : Bytes} (hs : state.length = 16) :
    ∃ out, combineFrom E aesKey state macs = some out ∧ out.length = 16 := by
  induction macs generalizing state with
  | nil => exact ⟨state, rfl, hs⟩
  | cons m macs ih =>
    have hml := hm m (List.mem_cons_self ..)
    rw [combineFrom, if_pos (hml.trans hs.symm)]
    exact ih (fun m' hm' => hm m' (List.mem_cons_of_mem _ hm'))
      (E.length_enc _ _ (length_xorBytes (length_zeros 16) (length_xorBytes hs hml)))

theorem combineChunkMacs_some (aesKey : Bytes) {macs : List Bytes} (hm : ∀ m ∈ macs, m.length = 16) :
    ∃ out, combineChunkMacs E macs aesKey = some out ∧ out.length = 16 :=
  combineFrom_some E aesKey hm (length_zeros 16)

end MegaBasterd.Chunks
