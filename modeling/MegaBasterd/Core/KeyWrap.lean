import MegaBasterd.Core.Chunks
import MegaBasterd.Library.Base64

/-!
`core/crypto.py`, the part the node keys use: MEGA's base64 alphabet and the
wrapping of a key block by block. The block function is a parameter.
-/

namespace MegaBasterd.KeyWrap

open Library.BlockMode Library.BigEndian Library.Text Library.Base64

/-- `b64_url_decode`; `none` stands for `binascii.Error`. -/
def b64UrlDecode (data : Str) : Option Bytes :=
  let data := (data.map fun c => if c = 45 then 43 else if c = 95 then 47 else c).filter (· ≠ 44)
  if data.any fun c => decodeChar c = none then none
  else b64decode false (data ++ List.replicate ((4 - data.length % 4) % 4) 61)

def b64UrlEncode (data : Bytes) : Str :=
  rstripBy (· == 61) ((b64encode data).map fun c => if c = 43 then 45 else if c = 47 then 95 else c)

/-- AES under a key, one block at a time. -/
structure BlockPair where
  enc : Bytes → Bytes → Bytes
  dec : Bytes → Bytes → Bytes

/-- `none` stands for `ValueError`: of a partial block, or of a key AES does not take. -/
def wrapBlocks (block : Bytes → Bytes → Bytes) (data key : Bytes) : Option Bytes :=
  if data.length % 16 ≠ 0 then none
  else if data ≠ [] ∧ key.length ≠ 16 ∧ key.length ≠ 24 ∧ key.length ≠ 32 then none
  else some ((blocksOf 16 (data.length / 16) data).flatMap (block key))

def aesKeyWrapEncrypt (A : BlockPair) (data key : Bytes) : Option Bytes := wrapBlocks A.enc data key

def aesKeyWrapDecrypt (A : BlockPair) (data key : Bytes) : Option Bytes := wrapBlocks A.dec data key

end MegaBasterd.KeyWrap
