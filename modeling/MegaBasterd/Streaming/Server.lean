import MegaBasterd.Core.Crypto
import MegaBasterd.Core.RangeValidation

/-!
`streaming/server.py`: one GET request of the streaming server. The `Range`
header is parsed, the upstream body is fetched from the block boundary below
the first byte, decrypted, cut to the requested window and written to the
player. `pump_window` is the loop's invariant: after any splitting of the body
into blocks, what was written is one window of what was decrypted.
`streaming_serves_range` puts it together for a whole request.
-/

namespace MegaBasterd.Streaming

open Library.BigEndian Library.BlockMode Library.Text MegaBasterd.Chunks MegaBasterd.Crypto
  MegaBasterd.RangeValidation

/-! ## `_parse_range` -/

inductive RangeError
  | valueError (message : String)
  | indexError (message : String)
  deriving DecidableEq, Repr

variable (U : CharData)

def intField (s : Str) : Except RangeError Int :=
  match pyInt U s with
  | some n => .ok n
  | none => .error (.valueError "invalid literal for int()")

/-- The two ends as the header gives them, before the bounds check. -/
def rangeEnds (left right : Str) (size : Nat) : Except RangeError (Int × Int) :=
  if left ≠ [] then
    match intField U left, if right ≠ [] then intField U right else .ok (size - 1) with
    | .ok start, .ok stop => .ok (start, stop)
    | .error e, _ => .error e
    | _, .error e => .error e
  else
    match intField U right with
    | .error e => .error e
    | .ok suffixLen =>
      if suffixLen ≤ 0 then .error (.indexError "Unsatisfiable range")
      else .ok (max 0 (size - suffixLen), size - 1)

/-- `_parse_range`: first byte, last byte, and whether the answer is partial. -/
def parseRange (rangeHeader : Str) (size : Nat) : Except RangeError (Int × Int × Bool) :=
  if rangeHeader = [] then .ok (0, size - 1, false)
  else if ¬ text "bytes=" <+: rangeHeader then .error (.valueError "Unsupported range unit")
  else
    let spec := (partitionAt 61 rangeHeader).2.2
    if 44 ∈ spec then .error (.valueError "Multiple ranges are not supported")
    else
      let (left, sep, right) := partitionAt 45 spec
      if sep = false then .error (.valueError "Malformed range")
      else
        match rangeEnds U left right size with
        | .error e => .error e
        | .ok (start, stop) =>
          if start < 0 ∨ stop < start ∨ size ≤ start then
            .error (.indexError "Unsatisfiable range")
          else .ok (start, min stop (size - 1), true)

/-! ## `_open_upstream` -/

/-- An upstream answer: the status, the two headers the validator reads, and
the body as `iter_content` yields it, which may end in an exception. -/
structure UpstreamResponse where
  status : Nat
  contentRange : Option Str
  contentLength : Option Str
  blocks : List Bytes
  bodyFails : Bool
  deriving DecidableEq, Repr

/-- What one attempt meets; `refreshes` says whether `refresh_cdn_url` succeeds. -/
inductive Attempt
  | proxyRequired
  | requestFailed
  | answered (resp : UpstreamResponse) (refreshes : Bool)
  deriving DecidableEq, Repr

inductive Upstream
  | failed (code : Nat) (reason : String)
  | raised
  | opened (resp : UpstreamResponse)
  deriving DecidableEq, Repr

def urlExpiryStatus : List Nat := [403, 410, 509]

/-- The `for attempt in range(2)` loop over the attempts still allowed. -/
def openAttempts (start stop size : Nat) : Nat → List Attempt → Upstream
  | _, [] => .failed 502 "Upstream CDN URL expired"
  | attempt, outcome :: rest =>
    match outcome with
    | .proxyRequired => .failed 502 "Upstream proxy unavailable"
    | .requestFailed => .failed 502 "Upstream request failed"
    | .answered resp refreshes =>
      if resp.status ∈ urlExpiryStatus ∧ attempt = 0 then
        if refreshes then openAttempts start stop size (attempt + 1) rest
        else .failed 502 "CDN URL refresh failed"
      else if resp.status ≠ 200 ∧ resp.status ≠ 206 then .failed 502 ("Upstream HTTP " ++ toString resp.status)
      else
        match validateRangeResponse U resp.status resp.contentRange resp.contentLength
            start stop size with
        | .ok () => .opened resp
        | .error (.notHonored _) => .failed 502 "Upstream ignored the requested range"
        | .error .valueError => .raised

def openUpstream (outcomes : Nat → Attempt) (start stop size : Nat) : Upstream :=
  openAttempts U start stop size 0 ((List.range 2).map outcomes)

/-! ## `_pump` -/

inductive PumpEnd
  | returned
  | shortUpstreamBody
  | clientGone
  | bodyError
  deriving DecidableEq, Repr

variable (E : BlockCipher)

/-- `self.wfile.write`: the player takes `accepts` bytes in all (no bound when
`none`) and drops the connection at the first byte beyond. -/
def writeOut (accepts : Option Nat) (sent : Nat) (data : Bytes) : Bytes × Bool :=
  match accepts with
  | none => (data, true)
  | some limit =>
    if sent + data.length ≤ limit then (data, true) else (data.take (limit - sent), false)

/-- The skip and the truncation of one decrypted block, and the skip still open. -/
def cutBlock (length blockSkip sent : Nat) (decrypted : Bytes) : Bytes × Nat :=
  let skipped := min blockSkip decrypted.length
  let decrypted := decrypted.drop skipped
  (if length < sent + decrypted.length then decrypted.take (length - sent) else decrypted,
    blockSkip - skipped)

/-- The bytes `_pump` writes and how it ends. -/
def pump (length : Nat) (accepts : Option Nat) (bodyFails : Bool) :
    List Bytes → CtrCipher → Nat → Nat → Bytes × PumpEnd
  | [], _, _, sent =>
    ([], if bodyFails then .bodyError else if sent ≠ length then .shortUpstreamBody else .returned)
  | block :: blocks, cipher, blockSkip, sent =>
    if block = [] then pump length accepts bodyFails blocks cipher blockSkip sent
    else
      let (decrypted, cipher) := cipher.crypt E block
      let (decrypted, blockSkip) := cutBlock length blockSkip sent decrypted
      if decrypted = [] then pump length accepts bodyFails blocks cipher blockSkip sent
      else
        match writeOut accepts sent decrypted with
        | (written, false) => (written, .clientGone)
        | (written, true) =>
          let sent := sent + decrypted.length
          if length ≤ sent then
            (written, if sent ≠ length then .shortUpstreamBody else .returned)
          else
            let (more, ending) := pump length accepts bodyFails blocks cipher blockSkip sent
            (written ++ more, ending)

/-! ## `do_GET` -/

/-- The parts of `_StreamSource` a request reads; `contentDisposition` is the
header value made from the file name. -/
structure Source where
  size : Nat
  aesKey : Bytes
  nonce : Bytes
  mimetype : Str
  contentDisposition : Str
  deriving DecidableEq, Repr

/-- One answer on the wire: status, headers, the body bytes, and how the body ended. -/
structure Reply where
  status : Nat
  headers : List (Str × Str)
  body : Bytes
  ending : PumpEnd
  deriving DecidableEq, Repr

inductive Served
  | sentError (code : Nat) (reason : String)
  | raised
  | replied (reply : Reply)
  deriving DecidableEq, Repr

def strOfInt : Int → Str
  | .ofNat n => strOfNat n
  | .negSucc n => text "-" ++ strOfNat (n + 1)

/-- `do_GET` of an authorised request. -/
def doGet (source : Source) (rangeHeader : Str) (outcomes : Nat → Attempt)
    (accepts : Option Nat) : Served :=
  if source.size = 0 then
    if rangeHeader ≠ [] then
      .replied ⟨416, [(text "Content-Range", text "bytes */0"), (text "Accept-Ranges", text "bytes"),
        (text "Content-Length", text "0")], [], .returned⟩
    else
      .replied ⟨200, [(text "Content-Type", source.mimetype), (text "Content-Length", text "0"),
        (text "Accept-Ranges", text "bytes"),
        (text "Content-Disposition", source.contentDisposition)], [], .returned⟩
  else
    match parseRange U rangeHeader source.size with
    | .error (.valueError _) => .sentError 400 "Malformed Range"
    | .error (.indexError _) =>
      .replied ⟨416, [(text "Content-Range", text "bytes */" ++ strOfNat source.size),
        (text "Accept-Ranges", text "bytes")], [], .returned⟩
    | .ok (start, stop, isPartial) =>
      let length := stop - start + 1
      let blockStart := start / 16 * 16
      let blockSkip := start - blockStart
      match openUpstream U outcomes blockStart.toNat stop.toNat source.size with
      | .failed code reason => .sentError code reason
      | .raised => .raised
      | .opened resp =>
        match makeCtrCipher source.aesKey source.nonce (blockStart / 16).toNat with
        | .error _ => .raised
        | .ok cipher =>
          let (body, ending) := pump E length.toNat accepts resp.bodyFails resp.blocks cipher
            blockSkip.toNat 0
          let range := if isPartial then [(text "Content-Range", text "bytes " ++ strOfInt start ++
            text "-" ++ strOfInt stop ++ text "/" ++ strOfNat source.size)] else []
          .replied ⟨if isPartial then 206 else 200,
            range ++ [(text "Content-Type", source.mimetype),
              (text "Content-Length", strOfInt length), (text "Accept-Ranges", text "bytes"),
              (text "Content-Disposition", source.contentDisposition)], body, ending⟩

/-! ## What a range header means -/

/-- A single byte range as RFC 7233 writes it, its numbers as digit strings. -/
inductive ByteRange
  | firstLast (first last : Str)
  | firstOn (first : Str)
  | suffix (length : Str)
  deriving DecidableEq, Repr

namespace ByteRange

def header : ByteRange → Str
  | firstLast first last => text "bytes=" ++ first ++ text "-" ++ last
  | firstOn first => text "bytes=" ++ first ++ text "-"
  | suffix length => text "bytes=-" ++ length

def IsNumber (s : Str) : Prop := s ≠ [] ∧ AsciiDigits s ∧ s.length ≤ maxStrDigits

def WellFormed : ByteRange → Prop
  | firstLast first last => IsNumber first ∧ IsNumber last
  | firstOn first => IsNumber first
  | suffix length => IsNumber length

/-- Some byte of a `size`-byte file lies in the range. -/
def Satisfiable (size : Nat) : ByteRange → Prop
  | firstLast first last =>
    decimalValue 0 first ≤ decimalValue 0 last ∧ decimalValue 0 first < size
  | firstOn first => decimalValue 0 first < size
  | suffix length => 0 < decimalValue 0 length ∧ 0 < size

/-- The first and the last byte the range selects. -/
def span (size : Nat) : ByteRange → Nat × Nat
  | firstLast first last => (decimalValue 0 first, min (decimalValue 0 last) (size - 1))
  | firstOn first => (decimalValue 0 first, size - 1)
  | suffix length => (size - decimalValue 0 length, size - 1)

end ByteRange

/-- Every accepted header selects a nonempty range inside the file. -/
theorem parseRange_bounds {rangeHeader : Str} {size : Nat} (hsize : 0 < size) {start stop : Int}
    {isPartial : Bool} (h : parseRange U rangeHeader size = .ok (start, stop, isPartial)) :
    0 ≤ start ∧ start ≤ stop ∧ stop < size := by
  unfold parseRange at h
  split at h
  · cases h
    omega
  split at h
  · cases h
  simp only at h
  split at h
  · cases h
  split at h
  · cases h
  split at h
  · cases h
  split at h
  · cases h
  · cases h
    omega

theorem intField_number {s : Str} (h : ByteRange.IsNumber s) :
    intField U s = .ok (decimalValue 0 s : Int) := by
  rw [intField, pyInt_ascii h.2.1 h.1 h.2.2]

theorem not_mem_number {s : Str} (h : ByteRange.IsNumber s) {c : Nat} (hc : c < 48) : c ∉ s := by
  intro hmem
  have := h.2.1 c hmem
  omega

/-- The header of a range, cut at its first hyphen. -/
theorem parseRange_spec {left right : Str} {size : Nat} (hleft : 44 ∉ left ∧ 45 ∉ left)
    (hright : 44 ∉ right) {start stop : Int} (hends : rangeEnds U left right size = .ok (start, stop))
    (hin : 0 ≤ start ∧ start ≤ stop ∧ start < size) :
    parseRange U (text "bytes=" ++ left ++ text "-" ++ right) size =
      .ok (start, min stop (size - 1), true) := by
  have hcut : partitionAt 61 (text "bytes=" ++ left ++ text "-" ++ right) =
      (text "bytes", true, left ++ text "-" ++ right) := by
    have := @partitionAt_append 61 (text "bytes") (left ++ text "-" ++ right) (by decide)
    simpa [text] using this
  have hhyphen : partitionAt 45 (left ++ text "-" ++ right) = (left, true, right) := by
    have := @partitionAt_append 45 left right hleft.2
    simpa [text] using this
  have hcomma : 44 ∉ left ++ text "-" ++ right := by
    simp [text, hleft.1, hright]
  have hpre : text "bytes=" <+: text "bytes=" ++ left ++ text "-" ++ right :=
    ⟨left ++ (text "-" ++ right), by simp only [List.append_assoc]⟩
  rw [parseRange, if_neg (by simp [text]), if_neg (not_not.mpr hpre), hcut]
  simp only
  rw [if_neg hcomma, hhyphen]
  simp only
  rw [if_neg (by decide), hends]
  simp only
  rw [if_neg (by omega)]

/-- A satisfiable single byte range is given the bytes it selects. -/
theorem parseRange_meaning {r : ByteRange} {size : Nat} (hform : r.WellFormed)
    (hsat : r.Satisfiable size) :
    parseRange U r.header size = .ok (((r.span size).1 : Int), ((r.span size).2 : Int), true) := by
  have hnot {s : Str} (h : ByteRange.IsNumber s) : 44 ∉ s ∧ 45 ∉ s :=
    ⟨not_mem_number h (by decide), not_mem_number h (by decide)⟩
  cases r with
  | firstLast first last =>
    obtain ⟨hfirst, hlast⟩ := hform
    obtain ⟨hle, hlt⟩ := hsat
    have hends : rangeEnds U first last size =
        .ok ((decimalValue 0 first : Int), (decimalValue 0 last : Int)) := by
      rw [rangeEnds, if_pos hfirst.1, if_pos hlast.1, intField_number U hfirst,
        intField_number U hlast]
    rw [ByteRange.header, parseRange_spec U (hnot hfirst) (hnot hlast).1 hends (by omega)]
    simp only [ByteRange.span, Except.ok.injEq, Prod.mk.injEq, and_true, true_and]
    omega
  | firstOn first =>
    rw [ByteRange.WellFormed] at hform
    rw [ByteRange.Satisfiable] at hsat
    have hends : rangeEnds U first [] size =
        .ok ((decimalValue 0 first : Int), (size : Int) - 1) := by
      rw [rangeEnds, if_pos hform.1, if_neg (by simp), intField_number U hform]
    have := parseRange_spec U (hnot hform) (by simp) hends (by omega)
    rw [List.append_nil] at this
    rw [ByteRange.header, this]
    simp only [ByteRange.span, Except.ok.injEq, Prod.mk.injEq, and_true, true_and]
    omega
  | suffix length =>
    rw [ByteRange.WellFormed] at hform
    obtain ⟨hpos, hsize⟩ := hsat
    have hends : rangeEnds U [] length size =
        .ok (max 0 ((size : Int) - (decimalValue 0 length : Int)), (size : Int) - 1) := by
      rw [rangeEnds, if_neg (by simp), intField_number U hform]
      simp only
      rw [if_neg (by omega)]
    have hnil : text "bytes=-" ++ length = text "bytes=" ++ [] ++ text "-" ++ length := by
      simp [text]
    rw [ByteRange.header, hnil, parseRange_spec U (by simp) (hnot hform).1 hends (by omega)]
    simp only [ByteRange.span, Except.ok.injEq, Prod.mk.injEq, and_true]
    omega

/-! ## What the player receives -/

/-- `count` bytes of `data` from `skip` on. -/
def window (skip count : Nat) (data : Bytes) : Bytes := (data.drop skip).take count

theorem window_append (skip count : Nat) (data more : Bytes) :
    window skip count (data ++ more) =
      window skip count data ++ window (skip - data.length) (count - (data.length - skip)) more := by
  rw [window, List.drop_append, List.take_append, List.length_drop]
  rfl

theorem window_of_short {skip count : Nat} {data : Bytes} (h : data.length - skip ≤ count) :
    window skip count data = data.drop skip :=
  List.take_of_length_le (by rw [List.length_drop]; exact h)

/-- A delivered body that agrees with the wanted bytes gives a prefix of the wanted window. -/
theorem window_mono {skip count : Nat} {data wanted : Bytes} (hlen : wanted.length = skip + count)
    (h : data <+: wanted ∨ wanted <+: data) :
    window skip count data <+: window skip count wanted := by
  rcases h with ⟨rest, rfl⟩ | ⟨rest, rfl⟩
  · rw [window_append]
    exact List.prefix_append _ _
  · rw [window_append, hlen, Nat.add_sub_cancel_left, Nat.sub_self]
    simp [window]

theorem writeOut_spec {accepts : Option Nat} {sent : Nat} {data written : Bytes} {ok : Bool}
    (h : writeOut accepts sent data = (written, ok)) :
    written <+: data ∧ (ok = true → written = data) := by
  unfold writeOut at h
  split at h
  · cases h
    exact ⟨List.prefix_refl _, fun _ => rfl⟩
  · split at h
    · cases h
      exact ⟨List.prefix_refl _, fun _ => rfl⟩
    · cases h
      exact ⟨List.take_prefix _ _, by simp⟩

/-- Whichever branch cuts a block, what is left of it is its window. -/
theorem cutBlock_eq (length blockSkip sent : Nat) (decrypted : Bytes) :
    cutBlock length blockSkip sent decrypted =
      (window blockSkip (length - sent) decrypted, blockSkip - decrypted.length) := by
  have hskip : decrypted.drop (min blockSkip decrypted.length) = decrypted.drop blockSkip := by
    rcases Nat.le_total blockSkip decrypted.length with hle | hle
    · rw [Nat.min_eq_left hle]
    · rw [Nat.min_eq_right hle, List.drop_of_length_le hle, List.drop_length]
  have hleft : blockSkip - min blockSkip decrypted.length = blockSkip - decrypted.length := by omega
  simp only [cutBlock, hskip, hleft]
  split
  · rfl
  · rename_i hfits
    rw [List.length_drop] at hfits
    rw [window_of_short (by omega)]

/-- One nonempty block: the loop writes its window and goes on. -/
theorem pump_cons {length : Nat} {accepts : Option Nat} {bodyFails : Bool} {block : Bytes}
    {blocks : List Bytes} {cipher : CtrCipher} {blockSkip sent : Nat} (hne : block ≠ []) :
    pump E length accepts bodyFails (block :: blocks) cipher blockSkip sent =
      let due := window blockSkip (length - sent)
        (xorStream (keystream E cipher.key cipher.nonce) cipher.pos block)
      let next := { cipher with pos := cipher.pos + block.length }
      if due = [] then pump E length accepts bodyFails blocks next (blockSkip - block.length) sent
      else
        match writeOut accepts sent due with
        | (written, false) => (written, .clientGone)
        | (written, true) =>
          if length ≤ sent + due.length then
            (written, if sent + due.length ≠ length then .shortUpstreamBody else .returned)
          else
            let (more, ending) := pump E length accepts bodyFails blocks next
              (blockSkip - block.length) (sent + due.length)
            (written ++ more, ending) := by
  rw [pump, if_neg hne]
  simp only [CtrCipher.crypt, cutBlock_eq, length_xorStream]

theorem length_window (skip count : Nat) (data : Bytes) :
    (window skip count data).length = min count (data.length - skip) := by
  rw [window, List.length_take, List.length_drop]

/-- The loop of `_pump`, after any splitting into blocks: what it writes is a
prefix of one window of the decrypted body, and the whole of it on a normal
return, which then has the length still to be sent. -/
theorem pump_window (length : Nat) (accepts : Option Nat) (bodyFails : Bool) (blocks : List Bytes)
    (cipher : CtrCipher) (blockSkip sent : Nat) (hsent : sent ≤ length) {written : Bytes}
    {ending : PumpEnd}
    (h : pump E length accepts bodyFails blocks cipher blockSkip sent = (written, ending)) :
    let due := window blockSkip (length - sent)
      (xorStream (keystream E cipher.key cipher.nonce) cipher.pos blocks.flatten)
    written <+: due ∧ (ending = .returned → written = due ∧ sent + due.length = length) := by
  induction blocks generalizing cipher blockSkip sent written with
  | nil =>
    cases h
    refine ⟨by simp [window, xorStream], fun hend => ?_⟩
    cases bodyFails with
    | true => simp at hend
    | false =>
      simp only [Bool.false_eq_true, if_false] at hend
      simp only [window, List.flatten_nil, xorStream, List.drop_nil, List.take_nil, true_and]
      rw [List.length_nil, Nat.add_zero]
      by_contra hshort
      simp [hshort] at hend
  | cons block blocks ih =>
    by_cases hne : block = []
    · subst hne
      exact ih cipher blockSkip sent hsent (by rwa [pump, if_pos rfl] at h)
    rw [pump_cons E hne] at h
    simp only at h ⊢
    rw [List.flatten_cons, xorStream_append, window_append, length_xorStream]
    have hlen := length_window blockSkip (length - sent)
      (xorStream (keystream E cipher.key cipher.nonce) cipher.pos block)
    rw [length_xorStream] at hlen
    generalize window blockSkip (length - sent)
      (xorStream (keystream E cipher.key cipher.nonce) cipher.pos block) = due at h hlen ⊢
    split at h
    · -- Nothing of this block is due: either all is sent or the skip covers it.
      rename_i hnone
      rw [hnone, List.length_nil] at hlen
      have hcount : length - sent - (block.length - blockSkip) = length - sent := by omega
      rw [hnone, List.nil_append, hcount]
      exact ih { cipher with pos := cipher.pos + block.length } _ sent hsent h
    · cases hwrite : writeOut accepts sent due with
      | mk out ok =>
        obtain ⟨hpre, hall⟩ := writeOut_spec hwrite
        rw [hwrite] at h
        cases ok with
        | false =>
          cases h
          exact ⟨hpre.trans (List.prefix_append _ _), by simp⟩
        | true =>
          obtain rfl := hall rfl
          simp only at h
          split at h
          · rename_i hstop
            cases h
            have hdone : length - sent - (block.length - blockSkip) = 0 := by omega
            refine ⟨List.prefix_append _ _, fun _ => ?_⟩
            rw [hdone, window, List.take_zero, List.append_nil]
            exact ⟨rfl, by omega⟩
          · rename_i hmore
            cases hrest : pump E length accepts bodyFails blocks
                { cipher with pos := cipher.pos + block.length } (blockSkip - block.length)
                (sent + out.length) with
            | mk more fin =>
              rw [hrest] at h
              cases h
              obtain ⟨hwritten, hret⟩ := ih _ _ _ (by omega) hrest
              have hcount : length - (sent + out.length) =
                  length - sent - (block.length - blockSkip) := by omega
              rw [hcount] at hwritten hret
              refine ⟨(List.prefix_append_right_inj _).mpr hwritten, fun hend => ?_⟩
              obtain ⟨heq, htotal⟩ := hret hend
              refine ⟨by rw [heq], ?_⟩
              rw [List.length_append, ← Nat.add_assoc]
              exact htotal

theorem writeOut_willing {accepts : Option Nat} {sent : Nat} {data : Bytes}
    (h : ∀ limit ∈ accepts, sent + data.length ≤ limit) : writeOut accepts sent data = (data, true) := by
  unfold writeOut
  split
  · rfl
  · exact if_pos (h _ rfl)

/-- A player that takes all of it and a body with all the bytes that are due make the loop return. -/
theorem pump_returned {length : Nat} {accepts : Option Nat} (hwilling : ∀ limit ∈ accepts, length ≤ limit)
    (bodyFails : Bool) (blocks : List Bytes) (cipher : CtrCipher) (blockSkip sent : Nat) (hsent : sent < length)
    (hbody : blockSkip + (length - sent) ≤ blocks.flatten.length) :
    (pump E length accepts bodyFails blocks cipher blockSkip sent).2 = .returned := by
  induction blocks generalizing cipher blockSkip sent with
  | nil =>
    rw [List.flatten_nil, List.length_nil] at hbody
    omega
  | cons block blocks ih =>
    rw [List.flatten_cons, List.length_append] at hbody
    by_cases hne : block = []
    · subst hne
      rw [List.length_nil, Nat.zero_add] at hbody
      rw [pump, if_pos rfl]
      exact ih cipher blockSkip sent hsent hbody
    rw [pump_cons E hne]
    have hlen := length_window blockSkip (length - sent)
      (xorStream (keystream E cipher.key cipher.nonce) cipher.pos block)
    rw [length_xorStream] at hlen
    generalize window blockSkip (length - sent)
      (xorStream (keystream E cipher.key cipher.nonce) cipher.pos block) = due at hlen ⊢
    simp only
    split
    · -- The skip covers this block.
      rename_i hnone
      rw [hnone, List.length_nil] at hlen
      exact ih _ _ sent hsent (by omega)
    · rw [writeOut_willing fun limit hlimit => Nat.le_trans (by omega) (hwilling limit hlimit)]
      simp only
      split
      · rw [if_neg (by omega)]
      · exact ih _ _ _ (by omega) (by omega)

/-! ## A whole request -/

/-- The plaintext of the file whose ciphertext is given. -/
def plaintextOf (source : Source) (ciphertext : Bytes) : Bytes :=
  xorStream (keystream E source.aesKey source.nonce) 0 ciphertext

/-- The body is the ciphertext of the requested bytes, cut short or followed by anything. -/
def Delivers (ciphertext : Bytes) (start stop : Nat) (blocks : List Bytes) : Prop :=
  blocks.flatten <+: window start (stop + 1 - start) ciphertext ∨
    window start (stop + 1 - start) ciphertext <+: blocks.flatten

instance (ciphertext : Bytes) (start stop : Nat) (blocks : List Bytes) :
    Decidable (Delivers ciphertext start stop blocks) :=
  inferInstanceAs (Decidable (_ ∨ _))

/-- Decrypting a delivered body from the block boundary gives the plaintext window. -/
theorem delivered_window {source : Source} {ciphertext : Bytes} {blockStart blockSkip length : Nat}
    {body : Bytes} (hfit : blockStart + (blockSkip + length) ≤ ciphertext.length)
    (h : body <+: window blockStart (blockSkip + length) ciphertext ∨
      window blockStart (blockSkip + length) ciphertext <+: body) :
    window blockSkip length (xorStream (keystream E source.aesKey source.nonce) blockStart body) <+:
      window (blockStart + blockSkip) length (plaintextOf E source ciphertext) := by
  generalize hks : keystream E source.aesKey source.nonce = ks
  have hwanted : xorStream ks blockStart (window blockStart (blockSkip + length) ciphertext) =
      window blockStart (blockSkip + length) (plaintextOf E source ciphertext) := by
    rw [plaintextOf, hks, window, window, xorStream_drop, Nat.zero_add, xorStream_take]
  have hlen : (window blockStart (blockSkip + length) (plaintextOf E source ciphertext)).length =
      blockSkip + length := by
    rw [length_window, plaintextOf, length_xorStream]
    omega
  have hsame : window blockSkip length
      (window blockStart (blockSkip + length) (plaintextOf E source ciphertext)) =
        window (blockStart + blockSkip) length (plaintextOf E source ciphertext) := by
    simp only [window, List.drop_take, List.drop_drop, List.take_take]
    rw [Nat.add_sub_cancel_left, Nat.min_self]
  rw [← hsame]
  apply window_mono hlen
  rw [← hwanted]
  exact h.imp (xorStream_mono ks) (xorStream_mono ks)

theorem makeCtrCipher_pos {key nonce : Bytes} {initialValue : Nat} {cipher : CtrCipher}
    (h : makeCtrCipher key nonce initialValue = .ok cipher) :
    cipher = ⟨key, nonce, 16 * initialValue⟩ := by
  unfold makeCtrCipher at h
  split at h
  · cases h
  split at h
  · cases h
  split at h
  · cases h
  · exact (Except.ok.inj h).symm

/-- A reply with content comes out of `_pump` with the cipher at the block boundary. -/
theorem doGet_replied {source : Source} (hsize : 0 < source.size) {rangeHeader : Str}
    {outcomes : Nat → Attempt} {accepts : Option Nat} {start stop : Nat} {isPartial : Bool}
    (hrange : parseRange U rangeHeader source.size = .ok (start, stop, isPartial))
    (hle : start ≤ stop) {reply : Reply}
    (h : doGet U E source rangeHeader outcomes accepts = .replied reply) :
    ∃ resp, openUpstream U outcomes (start / 16 * 16) stop source.size = .opened resp ∧
      pump E (stop + 1 - start) accepts resp.bodyFails resp.blocks
        ⟨source.aesKey, source.nonce, start / 16 * 16⟩ (start - start / 16 * 16) 0 =
          (reply.body, reply.ending) ∧
      (text "Content-Length", strOfNat (stop + 1 - start)) ∈ reply.headers := by
  rw [doGet, if_neg (by omega), hrange] at h
  simp only at h
  have hblock : ((start : Int) / 16 * 16).toNat = start / 16 * 16 := by omega
  have hcounter : ((start : Int) / 16 * 16 / 16).toNat = start / 16 := by omega
  have hskip : ((start : Int) - (start : Int) / 16 * 16).toNat = start - start / 16 * 16 := by omega
  have hlength : (stop : Int) - start + 1 = ((stop + 1 - start : Nat) : Int) := by omega
  rw [hblock, hcounter, hskip, hlength, Int.toNat_natCast] at h
  cases hopen : openUpstream U outcomes (start / 16 * 16) stop source.size with
  | failed code reason => simp [hopen] at h
  | raised => simp [hopen] at h
  | opened resp =>
    rw [Int.toNat_natCast, hopen] at h
    simp only at h
    cases hcipher : makeCtrCipher source.aesKey source.nonce (start / 16) with
    | error e => simp [hcipher] at h
    | ok cipher =>
      rw [hcipher, makeCtrCipher_pos hcipher, Nat.mul_comm] at h
      simp only at h
      cases h
      refine ⟨resp, rfl, rfl, ?_⟩
      exact List.mem_append_right _ (List.mem_cons_of_mem _ (List.mem_cons_self ..))

/-- Every request is served the bytes it asked for: an accepted header selects
a range inside the file, with the standard meaning where it is a satisfiable
single byte range; the player gets a prefix of that plaintext range, and all
of it, as many bytes as announced, when `_pump` returns, which it does when the
upstream body is complete and the player takes all of it. -/
theorem streaming_serves_range (source : Source) (hsize : 0 < source.size) (ciphertext : Bytes)
    (hfile : ciphertext.length = source.size) (rangeHeader : Str) (outcomes : Nat → Attempt)
    (accepts : Option Nat)
    (hbody : ∀ (start stop : Nat) isPartial resp,
      parseRange U rangeHeader source.size = .ok (start, stop, isPartial) →
      openUpstream U outcomes (start / 16 * 16) stop source.size = .opened resp →
      Delivers ciphertext (start / 16 * 16) stop resp.blocks) :
    (∀ r : ByteRange, rangeHeader = r.header → r.WellFormed → r.Satisfiable source.size →
      parseRange U rangeHeader source.size =
        .ok ((r.span source.size).1, (r.span source.size).2, true)) ∧
    (∀ first last isPartial, parseRange U rangeHeader source.size = .ok (first, last, isPartial) →
      ∃ start stop : Nat, first = start ∧ last = stop ∧ start ≤ stop ∧ stop < source.size ∧
        ∀ reply, doGet U E source rangeHeader outcomes accepts = .replied reply →
          (text "Content-Length", strOfNat (stop + 1 - start)) ∈ reply.headers ∧
          reply.body <+: window start (stop + 1 - start) (plaintextOf E source ciphertext) ∧
          (reply.ending = .returned →
            reply.body = window start (stop + 1 - start) (plaintextOf E source ciphertext) ∧
            reply.body.length = stop + 1 - start) ∧
          ((∀ limit ∈ accepts, stop + 1 - start ≤ limit) →
            (∀ resp, openUpstream U outcomes (start / 16 * 16) stop source.size = .opened resp →
              stop + 1 - start / 16 * 16 ≤ resp.blocks.flatten.length) →
            reply.ending = .returned)) ∧
    (∀ e reply, parseRange U rangeHeader source.size = .error e →
      doGet U E source rangeHeader outcomes accepts = .replied reply → reply.body = []) := by
  refine ⟨?_, ?_, ?_⟩
  · intro r hr hform hsat
    rw [hr]
    exact parseRange_meaning U hform hsat
  · intro first last isPartial hrange
    obtain ⟨hpos, hle, hlt⟩ := parseRange_bounds U hsize hrange
    obtain ⟨start, rfl⟩ := Int.eq_ofNat_of_zero_le hpos
    obtain ⟨stop, rfl⟩ := Int.eq_ofNat_of_zero_le (Int.le_trans hpos hle)
    refine ⟨start, stop, rfl, rfl, by omega, by omega, ?_⟩
    intro reply hreply
    obtain ⟨resp, hopen, hpump, hlength⟩ :=
      doGet_replied U E hsize hrange (by omega) hreply
    obtain ⟨hwritten, hreturned⟩ := pump_window E _ _ _ _ _ _ _ (Nat.zero_le _) hpump
    have hspan : start - start / 16 * 16 + (stop + 1 - start) = stop + 1 - start / 16 * 16 := by
      omega
    have hstart : start / 16 * 16 + (start - start / 16 * 16) = start := by omega
    have hdue := @delivered_window E source ciphertext (start / 16 * 16) (start - start / 16 * 16)
      (stop + 1 - start) resp.blocks.flatten (by rw [hspan]; omega)
      (by rw [hspan]; exact hbody start stop isPartial resp hrange hopen)
    rw [hstart] at hdue
    rw [Nat.sub_zero] at hwritten hreturned
    refine ⟨hlength, hwritten.trans hdue, fun hend => ?_, fun hwilling hcomplete => ?_⟩
    · obtain ⟨heq, hcount⟩ := hreturned hend
      rw [Nat.zero_add] at hcount
      have hwhole : (window start (stop + 1 - start) (plaintextOf E source ciphertext)).length =
          stop + 1 - start := by
        rw [length_window, plaintextOf, length_xorStream]
        omega
      rw [heq]
      exact ⟨hdue.eq_of_length (hcount.trans hwhole.symm), hcount⟩
    · have hall := hcomplete resp hopen
      have hpumped := pump_returned E hwilling resp.bodyFails resp.blocks
        ⟨source.aesKey, source.nonce, start / 16 * 16⟩ (start - start / 16 * 16) 0 (by omega) (by omega)
      rwa [hpump] at hpumped
  · intro e reply herror hreply
    rw [doGet, if_neg (by omega), herror] at hreply
    cases e with
    | valueError m => cases hreply
    | indexError m =>
      cases hreply
      rfl

/-- The answer to a request from the second byte on. -/
def twoBlocks : UpstreamResponse :=
  ⟨206, some (text "bytes 0-2/3"), none, [[7], [8, 9]], false⟩

/-- A seek to the second byte of a three-byte file, the body in two pieces. -/
theorem streaming_serves_range_seek :
    ∃ reply, doGet asciiData xorCipher ⟨3, zeros 16, zeros 8, [], []⟩ (text "bytes=1-")
        (fun _ => .answered twoBlocks true) none = .replied reply ∧
      reply.ending = .returned ∧ reply.body = [8, 9] := by
  have hrange : parseRange asciiData (text "bytes=1-") 3 = .ok ((1 : Nat), (2 : Nat), true) := by
    decide
  have hopened : openUpstream asciiData (fun _ => .answered twoBlocks true) (1 / 16 * 16) 2 3 =
      .opened twoBlocks := by
    decide
  obtain ⟨_, hserved, _⟩ := streaming_serves_range asciiData xorCipher
    ⟨3, zeros 16, zeros 8, [], []⟩ (by decide) [7, 8, 9] rfl (text "bytes=1-")
    (fun _ => .answered twoBlocks true) none (by
      intro start stop isPartial resp hparse hopen
      rw [hrange] at hparse
      simp only [Except.ok.injEq, Prod.mk.injEq, Int.natCast_inj] at hparse
      obtain ⟨rfl, rfl, _⟩ := hparse
      cases hopened.symm.trans hopen
      decide)
  obtain ⟨start, stop, hstart, hstop, _, _, hall⟩ := hserved _ _ _ hrange
  obtain rfl : 1 = start := by omega
  obtain rfl : 2 = stop := by omega
  obtain ⟨reply, hreply⟩ : ∃ reply, doGet asciiData xorCipher ⟨3, zeros 16, zeros 8, [], []⟩
      (text "bytes=1-") (fun _ => .answered twoBlocks true) none = .replied reply := ⟨_, rfl⟩
  obtain ⟨_, _, hexact, hcomplete⟩ := hall reply hreply
  have hreturned : reply.ending = .returned := by
    refine hcomplete (by simp) fun resp hopen => ?_
    cases hopened.symm.trans hopen
    decide
  have hbody : window 1 2 (plaintextOf xorCipher ⟨3, zeros 16, zeros 8, [], []⟩ [7, 8, 9]) = [8, 9] := by decide
  exact ⟨reply, hreply, hreturned, (hexact hreturned).1.trans hbody⟩

end MegaBasterd.Streaming
