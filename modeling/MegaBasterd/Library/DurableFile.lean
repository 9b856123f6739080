import MegaBasterd.Library.BigEndian

/-!
A file with the bytes a crash can still take back: what was written since the
last `fsync` is `dirty`, and a crash may leave anything there. Sizes and names
change at once. A range `Holds` a content and is `Durable` independently of
what happens outside it (`holds_write`, `durable_write`), and a durable range
survives a crash (`holds_lose`).
-/

namespace Library

open Library.BigEndian

structure DurableFile where
  size : Nat
  data : Nat → UInt8
  dirty : Nat → Bool

namespace DurableFile

/-- `open(path, "wb")`. -/
def empty : DurableFile := ⟨0, fun _ => 0, fun _ => true⟩

/-- `f.truncate(n)`: what is added reads as zero. -/
def truncate (f : DurableFile) (n : Nat) : DurableFile where
  size := n
  data p := if p < f.size then f.data p else 0
  dirty p := if p < f.size then f.dirty p else true

/-- `f.seek(offset); f.write(bs)`. -/
def write (f : DurableFile) (offset : Nat) (bs : Bytes) : DurableFile where
  size := max f.size (offset + bs.length)
  data p := if offset ≤ p ∧ p < offset + bs.length then bs.getD (p - offset) 0 else f.data p
  dirty p := if offset ≤ p ∧ p < offset + bs.length then true else f.dirty p

/-- `os.fsync`. -/
def fsync (f : DurableFile) : DurableFile := { f with dirty := fun _ => false }

/-- A crash, after which the dirty bytes are whatever they turn out to be. -/
def lose (f : DurableFile) (garbage : Nat → UInt8) : DurableFile where
  size := f.size
  data p := if f.dirty p then garbage p else f.data p
  dirty _ := false

/-- `f.seek(offset); f.read(n)`. -/
def read (f : DurableFile) (offset n : Nat) : Bytes :=
  (List.range (min n (f.size - offset))).map fun j => f.data (offset + j)

def Holds (f : DurableFile) (lo hi : Nat) (content : Nat → UInt8) : Prop :=
  ∀ p, lo ≤ p → p < hi → f.data p = content p

def Durable (f : DurableFile) (lo hi : Nat) : Prop := ∀ p, lo ≤ p → p < hi → f.dirty p = false

variable {f : DurableFile} {lo hi : Nat} {content : Nat → UInt8}

theorem data_write (offset : Nat) (bs : Bytes) (p : Nat) : (f.write offset bs).data p =
    if offset ≤ p ∧ p < offset + bs.length then bs.getD (p - offset) 0 else f.data p := rfl

theorem dirty_write (offset : Nat) (bs : Bytes) (p : Nat) : (f.write offset bs).dirty p =
    if offset ≤ p ∧ p < offset + bs.length then true else f.dirty p := rfl

theorem holds_write (h : f.Holds lo hi content) {offset : Nat} {bs : Bytes}
    (hapart : ∀ p, lo ≤ p → p < hi → ¬ (offset ≤ p ∧ p < offset + bs.length)) :
    (f.write offset bs).Holds lo hi content := by
  intro p hlo hhi
  rw [data_write, if_neg (hapart p hlo hhi)]
  exact h p hlo hhi

theorem durable_write (h : f.Durable lo hi) {offset : Nat} {bs : Bytes}
    (hapart : ∀ p, lo ≤ p → p < hi → ¬ (offset ≤ p ∧ p < offset + bs.length)) :
    (f.write offset bs).Durable lo hi := by
  intro p hlo hhi
  rw [dirty_write, if_neg (hapart p hlo hhi)]
  exact h p hlo hhi

/-- What has just been written is there. -/
theorem holds_written {offset : Nat} {bs : Bytes}
    (hbs : ∀ j, j < bs.length → bs.getD j 0 = content (offset + j)) :
    (f.write offset bs).Holds offset (offset + bs.length) content := by
  intro p hlo hhi
  rw [data_write, if_pos ⟨hlo, hhi⟩, hbs (p - offset) (by omega)]
  congr 1
  omega

theorem size_write_of_le {offset : Nat} {bs : Bytes} (h : offset + bs.length ≤ f.size) :
    (f.write offset bs).size = f.size := Nat.max_eq_left h

theorem durable_fsync : f.fsync.Durable lo hi := fun _ _ _ => rfl

theorem holds_lose (h : f.Holds lo hi content) (hdurable : f.Durable lo hi) (garbage : Nat → UInt8) :
    (f.lose garbage).Holds lo hi content := by
  intro p hlo hhi
  simp only [lose, hdurable p hlo hhi, Bool.false_eq_true, if_false]
  exact h p hlo hhi

theorem durable_lose (garbage : Nat → UInt8) : (f.lose garbage).Durable lo hi := fun _ _ _ => rfl

theorem read_of_holds {offset n : Nat} (h : f.Holds offset (offset + n) content)
    (hsize : offset + n ≤ f.size) : f.read offset n = (List.range n).map fun j => content (offset + j) := by
  rw [read, Nat.min_eq_left (by omega)]
  apply List.map_congr_left
  intro j hj
  have hlt := List.mem_range.mp hj
  exact h (offset + j) (by omega) (by omega)

end DurableFile

end Library
