import MegaBasterd.Core.AtomicOutput
import MegaBasterd.Library.Regex

/-!
`core/splitter.py`: a file is split into parts with a checksum beside them, and
parts are merged into a file. The number of parts is read from the name of the
part a merge is started from.
-/

namespace MegaBasterd.Splitter

open Library Library.BigEndian Library.Text Library.Regex Library.Disk Library.Fallible
open MegaBasterd.AtomicOutput

inductive SplitterFault
  | partSize
  | notAFile (source : Place)
  | emptyFile
  | notAPart (name : Str)
  | missingPart (part : Place)
  /-- `SplitterAliasError`. -/
  | sameFile (action : String) (out src : Place)
  | sha1Mismatch (expected got : Str)
  /-- `ValueError` of a number with too many digits, read or printed. -/
  | tooManyDigits
  /-- `UnicodeDecodeError` of the checksum file. -/
  | notAscii
  /-- `IndexError` of an empty checksum file. -/
  | noDigest
  deriving DecidableEq, Repr

abbrev Action (α : Type) : Type := Fallible World (Fault SplitterFault) α

def refuse {α : Type} (e : SplitterFault) : Action α := raise (.raised e)

/-- `hashlib.sha1(..).hexdigest()` of all that was passed to `update`. -/
structure Sha1 where
  hexdigest : Bytes → Str
  length : ∀ data, (hexdigest data).length = 40
  hex : ∀ data, ∀ c ∈ hexdigest data, 48 ≤ c ∧ c ≤ 57 ∨ 97 ≤ c ∧ c ≤ 102

/-! ## Names -/

variable (U : CharData)

/-- `\d` -/
def isDecimal (c : Nat) : Bool := (U.decimal c).isSome

/-- `_PART_RE`: the groups `base`, `idx` and `total`. -/
def partRe : Matcher (Str × Str × Str) := do
  let base ← many1 isDot
  lit (text ".part")
  let idx ← many1 (isDecimal U)
  lit (text "-")
  let total ← many1 (isDecimal U)
  eos
  return (base, idx, total)

def partName (base : Str) (idx total : Nat) : Str :=
  base ++ text ".part" ++ strOfNat idx ++ text "-" ++ strOfNat total

def partPaths (dir base : Str) (total : Nat) : List Place :=
  (List.range' 1 total).map fun idx => ⟨dir, partName base idx total⟩

def shaPath (dir base : Str) : Place := ⟨dir, base ++ text ".sha1"⟩

/-! ## Aliases -/

/-- `_is_same_file`; `os.path.samefile` fails where one of the two does not exist. -/
def isSameFile (d : Disk) (a b : Place) : Bool :=
  match stat d a, stat d b with
  | some x, some y => x = y
  | _, _ => realpath d a = realpath d b

/-- The first output that is one of the inputs. -/
def firstAlias (d : Disk) (outputs inputs : List Place) : Option (Place × Place) :=
  (outputs.flatMap fun out => inputs.map fun src => (out, src)).find? fun e => isSameFile d e.1 e.2

def rejectAliases (outputs inputs : List Place) (action : String) : Action Unit := do
  match ← look fun w => firstAlias w.disk outputs inputs with
  | none => return ()
  | some (out, src) => refuse (.sameFile action out src)

section Files

variable (H : Sha1) (T : TempFiles) (fails : Nat → Option OsFault)

/-- `path.is_file()`. -/
def isFileOp (p : Place) : Action Bool := do
  attempt fails
  look fun w => Disk.isFile w.disk p

/-- `open(path, "rb")` of a file that nothing writes to while it is open: what it will read. -/
def openRead (p : Place) : Action Bytes := do
  attempt fails
  match ← look fun w => Disk.read w.disk p with
  | none => raise (.os .osError)
  | some content => return content

def blockSize : Nat := 2 ^ 20

/-! ## `split_file` -/

/-- The inner loop: what the source still holds, and what the hash has seen.
The callback is one more thing that can fail. -/
def splitPart (inode remaining : Nat) (rest seen : Bytes) : Action (Bytes × Bytes) :=
  if remaining = 0 then return (rest, seen)
  else do
    attempt fails
    let block := rest.take (min blockSize remaining)
    if block = [] then return (rest, seen)
    else
      write fails inode block
      attempt fails
      splitPart inode (remaining - block.length) (rest.drop block.length) (seen ++ block)
termination_by remaining
decreasing_by
  have : 0 < (rest.take (min blockSize remaining)).length := List.length_pos_iff.mpr ‹_›
  omega

structure SplitResult where
  parts : List Place
  sha1 : Str
  totalBytes : Nat
  deriving DecidableEq, Repr

/-- `(digest + "\n").encode("ascii")` -/
def digestLine (digest : Str) : Bytes := (digest ++ [10]).map UInt8.ofNat

def bytesPerPart (partSizeMb : Int) : Nat := partSizeMb.toNat * 1024 * 1024

def splitFile (source : Place) (partSizeMb : Int) (outputDir : Option Str) : Action SplitResult := do
  if partSizeMb ≤ 0 then refuse .partSize
  else if !(← isFileOp fails source) then refuse (.notAFile source)
  else
    attempt fails
    let total ← look fun w => ((Disk.read w.disk source).getD []).length
    if total = 0 then refuse .emptyFile
    else
      let numParts := (total + bytesPerPart partSizeMb - 1) / bytesPerPart partSizeMb
      let outDir := outputDir.getD source.dir
      attempt fails
      if maxStrDigits < (strOfNat numParts).length then refuse .tooManyDigits
      else
        let parts := partPaths outDir source.name numParts
        let sha := shaPath outDir source.name
        rejectAliases (parts ++ [sha]) [source] "split"
        let content ← openRead fails source
        let (_, seen) ← parts.foldlM (fun (rest, seen) part =>
          atomicOutput T fails part fun inode => splitPart fails inode (bytesPerPart partSizeMb) rest seen) (content, [])
        let digest := H.hexdigest seen
        atomicOutput T fails sha fun inode => write fails inode (digestLine digest)
        return { parts, sha1 := digest, totalBytes := total }

/-! ## `merge_parts` -/

def requirePart (part : Place) : Action Unit := do
  if !(← isFileOp fails part) then refuse (.missingPart part)
  else return ()

/-- `.strip().split()[0].lower()` of an ASCII text. -/
def parseDigest (content : Bytes) : Except SplitterFault Str :=
  if content.any fun b => 128 ≤ b then .error .notAscii
  else
    match (content.map UInt8.toNat).dropWhile isSpace with
    | [] => .error .noDigest
    | s => .ok ((s.takeWhile fun c => !isSpace c).map asciiLower)

/-- `expected`. -/
def expectedDigest (verifySha1 : Bool) (sha : Place) : Action (Option Str) := do
  if !verifySha1 then return none
  else if !(← isFileOp fails sha) then return none
  else
    match parseDigest (← openRead fails sha) with
    | .error e => refuse e
    | .ok digest => return some digest

/-- The inner loop over the blocks of a part. -/
def copyBlocks (inode : Nat) (rest seen : Bytes) : Action Bytes := do
  attempt fails
  if rest = [] then return seen
  else
    write fails inode (rest.take blockSize)
    attempt fails
    copyBlocks inode (rest.drop blockSize) (seen ++ rest.take blockSize)
termination_by rest.length
decreasing_by
  have : 0 < rest.length := List.length_pos_iff.mpr ‹_›
  simp only [List.length_drop, blockSize]
  omega

def copyParts (inode : Nat) (parts : List Place) : Action Bytes :=
  parts.foldlM (fun seen part => do copyBlocks fails inode (← openRead fails part) seen) []

def checkDigest (expected : Option Str) (seen : Bytes) : Action Unit :=
  match expected with
  | none => return ()
  | some expected =>
    let got := (H.hexdigest seen).map asciiLower
    if expected ≠ got then refuse (.sha1Mismatch expected got) else return ()

/-- From the parts on. -/
def mergeInto (parts : List Place) (target sha : Place) (verifySha1 deleteParts : Bool) : Action Place := do
  parts.forM (requirePart fails)
  rejectAliases [target] (parts ++ [sha]) "merge"
  let expected ← expectedDigest fails verifySha1 sha
  parts.forM fun _ => attempt fails
  atomicOutput T fails target fun inode => do
    checkDigest H expected (← copyParts fails inode parts)
  if deleteParts then
    parts.forM fun part => suppress (unlink fails part)
    suppress (unlink fails sha)
  return target

def mergeParts (firstPart : Place) (output : Option Place) (verifySha1 deleteParts : Bool) : Action Place :=
  match first (partRe U) firstPart.name with
  | none => refuse (.notAPart firstPart.name)
  | some (base, _, total) =>
    match pyInt U total with
    | none => refuse .tooManyDigits
    | some total =>
      mergeInto H T fails (partPaths firstPart.dir base total.toNat) (output.getD ⟨firstPart.dir, base⟩)
        (shaPath firstPart.dir base) verifySha1 deleteParts

end Files

end MegaBasterd.Splitter
