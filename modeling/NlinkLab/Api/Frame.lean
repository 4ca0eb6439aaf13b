import NlinkLab.Data.Stream

/-! The framing of the daemon's socket: a length, a kind, the call a frame belongs to and
its body. -/

namespace NlinkLab.Api

/-- The largest frame, header included. -/
@[irreducible] def MAX_FRAME : Nat := 16 <<< 20

theorem MAX_FRAME_eq : MAX_FRAME = 2 ^ 24 := by
  rw [MAX_FRAME]
  rfl

/-- The byte stream a data frame belongs to. -/
inductive DataStream
  | stdin | stdout | stderr | pty | pcap | archive
  deriving DecidableEq, Repr

def DataStream.toU8 : DataStream → UInt8
  | .stdin => 0
  | .stdout => 1
  | .stderr => 2
  | .pty => 3
  | .pcap => 4
  | .archive => 5

def DataStream.fromU8 (b : UInt8) : Option DataStream :=
  if b = 0 then some .stdin
  else if b = 1 then some .stdout
  else if b = 2 then some .stderr
  else if b = 3 then some .pty
  else if b = 4 then some .pcap
  else if b = 5 then some .archive
  else none

inductive Frame
  | message (call : UInt32) (json : List UInt8)
  | data (call : UInt32) (stream : DataStream) (bytes : List UInt8)
  deriving DecidableEq, Repr

/-- A frame that cannot be decoded. -/
inductive FrameError
  | tooLarge (n : Nat)
  | truncated
  | unknownKind (kind : UInt8)
  | unknownStream (stream : UInt8)
  deriving DecidableEq, Repr

theorem DataStream.fromU8_toU8 (s : DataStream) : fromU8 s.toU8 = some s := by
  cases s <;> rfl

theorem DataStream.toU8_of_fromU8 {b : UInt8} {s : DataStream} (h : fromU8 b = some s) :
    s.toU8 = b := by
  unfold fromU8 at h
  split_ifs at h <;> cases h <;> simp_all [toU8]

/-! ### Words -/

def toBeBytes (n : UInt32) : List UInt8 :=
  [.ofNat (n.toNat / 2 ^ 24), .ofNat (n.toNat / 2 ^ 16), .ofNat (n.toNat / 2 ^ 8), .ofNat n.toNat]

def fromBeBytes (a b c d : UInt8) : UInt32 :=
  .ofNat (a.toNat * 2 ^ 24 + b.toNat * 2 ^ 16 + c.toNat * 2 ^ 8 + d.toNat)

@[simp] theorem length_toBeBytes (n : UInt32) : (toBeBytes n).length = 4 := rfl

/-- A word's bytes are four bytes, most significant first. -/
theorem toBeBytes_eq_iff {n : UInt32} {a b c d : UInt8} :
    toBeBytes n = [a, b, c, d] ↔ n = fromBeBytes a b c d := by
  have hn := n.toNat_lt
  have ha := a.toNat_lt
  have hb := b.toNat_lt
  have hc := c.toNat_lt
  have hd := d.toNat_lt
  simp only [toBeBytes, fromBeBytes, List.cons.injEq, and_true, ← UInt8.toNat_inj, ← UInt32.toNat_inj,
    UInt8.toNat_ofNat', UInt32.toNat_ofNat']
  omega

theorem exists_toBeBytes (n : UInt32) :
    ∃ a b c d, toBeBytes n = [a, b, c, d] ∧ fromBeBytes a b c d = n :=
  ⟨_, _, _, _, rfl, (toBeBytes_eq_iff.mp rfl).symm⟩

theorem toBeBytes_fromBeBytes (a b c d : UInt8) : toBeBytes (fromBeBytes a b c d) = [a, b, c, d] :=
  toBeBytes_eq_iff.mpr rfl

/-! ### The code -/

namespace Frame

def call : Frame → UInt32
  | .message call _ => call
  | .data call _ _ => call

/-- The kind, the stream and the body that `encode` writes. -/
def kind : Frame → UInt8
  | .message .. => 0
  | .data .. => 1

def head : Frame → Option UInt8
  | .message .. => none
  | .data _ stream _ => some stream.toU8

def body : Frame → List UInt8
  | .message _ json => json
  | .data _ _ bytes => bytes

/-- The length field's value before its cast. -/
def len (f : Frame) : Nat := 1 + 4 + f.head.elim 0 (fun _ => 1) + f.body.length

/-- The bytes `encode` appends. -/
def encode (f : Frame) : List UInt8 :=
  toBeBytes (.ofNat f.len) ++ [f.kind] ++ toBeBytes f.call ++ f.head.toList ++ f.body

/-- `buf[i..j]`, nothing where it panics. -/
def slice (buf : List UInt8) (i j : Nat) : Option (List UInt8) :=
  if i ≤ j ∧ j ≤ buf.length then some ((buf.take j).drop i) else none

/-- `u32::from_be_bytes` of the four bytes from `i`, nothing where an index panics. -/
def word (buf : List UInt8) (i : Nat) : Option UInt32 := do
  return fromBeBytes (← buf[i]?) (← buf[i + 1]?) (← buf[i + 2]?) (← buf[i + 3]?)

/-- The frame of a kind, a call and a body. -/
def ofBody (kind : UInt8) (call : UInt32) (body : List UInt8) : Except FrameError Frame :=
  if kind = 0 then .ok (.message call body)
  else if kind = 1 then
    match body with
    | [] => .error .truncated
    | s :: bytes =>
      match DataStream.fromU8 s with
      | some stream => .ok (.data call stream bytes)
      | none => .error (.unknownStream s)
  else .error (.unknownKind kind)

/-- `decode` from where it has read the length. -/
def decodeLen? (buf : List UInt8) (len : Nat) : Option (Except FrameError (Option (Frame × Nat))) := do
  if MAX_FRAME < len + 4 then return .error (.tooLarge (len + 4))
  if len < 5 then return .error .truncated
  if buf.length < 4 + len then return .ok none
  let kind ← buf[4]?
  let call ← word buf 5
  let body ← slice buf 9 (4 + len)
  return (ofBody kind call body).map fun frame => some (frame, 4 + len)

/-- `decode`, nothing where it panics. -/
def decode? (buf : List UInt8) : Option (Except FrameError (Option (Frame × Nat))) := do
  if buf.length < 4 then return .ok none
  decodeLen? buf (← word buf 0).toNat

/-- A kind, a call and a body that are all there. -/
def decodeBody (len : Nat) : List UInt8 → Except FrameError (Option (Frame × Nat))
  | kind :: a :: b :: c :: d :: more =>
    (ofBody kind (fromBeBytes a b c d) (more.take (len - 5))).map fun frame => some (frame, 4 + len)
  | _ => .ok none

/-- What follows the length. -/
def decodeLen (len : Nat) (rest : List UInt8) : Except FrameError (Option (Frame × Nat)) :=
  if MAX_FRAME < len + 4 then .error (.tooLarge (len + 4))
  else if len < 5 then .error .truncated
  else if rest.length < len then .ok none
  else decodeBody len rest

/-- `decode`, by the bytes it reads. -/
def decode : List UInt8 → Except FrameError (Option (Frame × Nat))
  | a :: b :: c :: d :: rest => decodeLen (fromBeBytes a b c d).toNat rest
  | _ => .ok none

theorem slice_body {a b c d kind e f g h : UInt8} {more : List UInt8} {len : Nat} (hlen : 5 ≤ len)
    (hmore : len ≤ more.length + 5) :
    slice (a :: b :: c :: d :: kind :: e :: f :: g :: h :: more) 9 (4 + len) =
      some (more.take (len - 5)) := by
  have hsub : 4 + len = (len - 5) + 9 := by omega
  rw [slice, if_pos (by simp; omega), hsub]
  simp

theorem decodeLen?_eq (a b c d : UInt8) (rest : List UInt8) (len : Nat) :
    decodeLen? (a :: b :: c :: d :: rest) len = some (decodeLen len rest) := by
  rw [decodeLen?, decodeLen, show (a :: b :: c :: d :: rest).length = rest.length + 4 from rfl]
  by_cases hmax : MAX_FRAME < len + 4
  · rw [if_pos hmax, if_pos hmax]
    rfl
  by_cases hshort : len < 5
  · rw [if_neg hmax, if_neg hmax, if_pos hshort, if_pos hshort]
    rfl
  by_cases hrest : rest.length < len
  · rw [if_neg hmax, if_neg hmax, if_neg hshort, if_neg hshort, if_pos (by omega), if_pos hrest]
    rfl
  rw [if_neg hmax, if_neg hmax, if_neg hshort, if_neg hshort, if_neg (by omega), if_neg hrest]
  match rest, hrest with
  | kind :: e :: f :: g :: h :: more, hrest =>
    rw [slice_body (by omega) (by simp at hrest; omega)]
    rfl
  | [], hrest | [_], hrest | [_, _], hrest | [_, _, _], hrest | [_, _, _, _], hrest =>
    simp at hrest
    omega

/-- No index or slice of `decode` is out of bounds. -/
theorem decode?_eq (buf : List UInt8) : decode? buf = some (decode buf) := by
  match buf with
  | [] | [_] | [_, _] | [_, _, _] => rfl
  | a :: b :: c :: d :: rest =>
    have hword : word (a :: b :: c :: d :: rest) 0 = some (fromBeBytes a b c d) := rfl
    have hlen : ¬ (a :: b :: c :: d :: rest).length < 4 := by simp
    rw [decode?, if_neg hlen, hword, Option.bind_eq_bind, Option.bind_some, decode]
    exact decodeLen?_eq a b c d rest _

/-! ### Round trips -/

/-- What `encode` writes after the length. -/
def payload (f : Frame) : List UInt8 := f.kind :: (toBeBytes f.call ++ (f.head.toList ++ f.body))

/-- The frame is within the limit, header included. -/
def fits (f : Frame) : Prop := f.len + 4 ≤ MAX_FRAME

instance (f : Frame) : Decidable f.fits := inferInstanceAs (Decidable (_ ≤ _))

theorem length_head_body (f : Frame) : (f.head.toList ++ f.body).length + 5 = f.len := by
  cases f with
  | message c json => simp [len, head, body]; omega
  | data c s bytes => simp [len, head, body]; omega

theorem length_payload (f : Frame) : f.payload.length = f.len := by
  rw [← length_head_body, payload, List.length_cons, List.length_append, length_toBeBytes]
  omega

theorem encode_eq (f : Frame) : f.encode = toBeBytes (.ofNat f.len) ++ f.payload := by
  simp [encode, payload]

theorem length_encode (f : Frame) : f.encode.length = 4 + f.len := by
  rw [encode_eq, List.length_append, length_toBeBytes, length_payload]

theorem ofBody_eq_ok {k : UInt8} {c : UInt32} {x : List UInt8} {f : Frame} :
    ofBody k c x = .ok f ↔ f.kind = k ∧ f.call = c ∧ f.head.toList ++ f.body = x := by
  constructor
  · intro h
    unfold ofBody at h
    split_ifs at h with h0 h1
    · cases h
      exact ⟨h0.symm, rfl, rfl⟩
    · rcases x with _ | ⟨s, bytes⟩
      · cases h
      · rcases hs : DataStream.fromU8 s with _ | stream
        · simp [hs] at h
        · simp only [hs] at h
          cases h
          exact ⟨h1.symm, rfl, by simp [head, body, DataStream.toU8_of_fromU8 hs]⟩
  · rintro ⟨rfl, rfl, rfl⟩
    cases f with
    | message c json => rfl
    | data c s bytes => simp [ofBody, kind, call, head, body, DataStream.fromU8_toU8]

theorem decodeBody_eq_some {len n : Nat} {rest : List UInt8} {f : Frame} :
    decodeBody len rest = .ok (some (f, n)) ↔
      ∃ more, rest = f.kind :: (toBeBytes f.call ++ more) ∧
        f.head.toList ++ f.body = more.take (len - 5) ∧ n = 4 + len := by
  constructor
  · intro h
    match rest, h with
    | kind :: a :: b :: c :: d :: more, h =>
      rw [decodeBody] at h
      rcases hf : ofBody kind (fromBeBytes a b c d) (more.take (len - 5)) with e | g
      · simp [hf, Except.map] at h
      · rw [hf] at h
        obtain ⟨rfl, rfl⟩ : g = f ∧ 4 + len = n := by simpa [Except.map] using h
        obtain ⟨rfl, hcall, hbody⟩ := ofBody_eq_ok.mp hf
        exact ⟨more, by rw [hcall, toBeBytes_fromBeBytes]; rfl, hbody, rfl⟩
  · rintro ⟨more, rfl, hbody, rfl⟩
    obtain ⟨a, b, c, d, hc, hcall⟩ := exists_toBeBytes f.call
    rw [hc]
    simp only [List.cons_append, List.nil_append, decodeBody]
    rw [hcall, ofBody_eq_ok.mpr ⟨rfl, rfl, hbody⟩]
    rfl

/-- Where the length is known, a frame is decoded when it fits and is all there. -/
theorem decodeLen_eq_some {len n : Nat} {rest : List UInt8} {f : Frame} :
    decodeLen len rest = .ok (some (f, n)) ↔
      f.payload <+: rest ∧ len = f.len ∧ f.fits ∧ n = 4 + f.len := by
  have hlen := length_head_body f
  unfold decodeLen
  constructor
  · intro h
    split_ifs at h with hmax hshort hrest
    · simp at h
    obtain ⟨more, rfl, hbody, rfl⟩ := decodeBody_eq_some.mp h
    have htake : len = f.len := by
      simp only [List.length_cons, List.length_append, length_toBeBytes] at hrest
      rw [hbody, List.length_take] at hlen
      omega
    refine ⟨?_, htake, by rw [fits, ← htake]; omega, by rw [htake]⟩
    rw [payload, hbody]
    exact List.cons_prefix_cons.mpr ⟨rfl, (List.prefix_append_right_inj _).mpr (List.take_prefix ..)⟩
  · rintro ⟨⟨more, rfl⟩, rfl, hfits, rfl⟩
    have hpay := length_payload f
    rw [if_neg (by rw [fits] at hfits; omega), if_neg (by omega),
      if_neg (by rw [List.length_append]; omega)]
    apply decodeBody_eq_some.mpr
    refine ⟨f.head.toList ++ f.body ++ more, by simp [payload], ?_, rfl⟩
    rw [List.take_left' (by omega)]

theorem decode_toBeBytes (w : UInt32) (rest : List UInt8) :
    decode (toBeBytes w ++ rest) = decodeLen w.toNat rest := by
  obtain ⟨a, b, c, d, hw, hn⟩ := exists_toBeBytes w
  rw [hw]
  show decodeLen (fromBeBytes a b c d).toNat rest = _
  rw [hn]

/-- Anything but a call for more bytes has read a length. -/
theorem decode_cases (buf : List UInt8) :
    buf.length < 4 ∧ decode buf = .ok none ∨
      ∃ w rest, buf = toBeBytes w ++ rest ∧ decode buf = decodeLen w.toNat rest := by
  match buf with
  | [] => exact .inl ⟨by simp, rfl⟩
  | [_] => exact .inl ⟨by simp, rfl⟩
  | [_, _] => exact .inl ⟨by simp, rfl⟩
  | [_, _, _] => exact .inl ⟨by simp, rfl⟩
  | a :: b :: c :: d :: rest =>
    have hw : a :: b :: c :: d :: rest = toBeBytes (fromBeBytes a b c d) ++ rest := by
      rw [toBeBytes_fromBeBytes]
      rfl
    exact .inr ⟨_, rest, hw, rfl⟩

/-- A frame within the limit has a length its field holds. -/
theorem toNat_len {f : Frame} (h : f.fits) : (UInt32.ofNat f.len).toNat = f.len := by
  rw [fits, MAX_FRAME_eq] at h
  exact UInt32.toNat_ofNat_of_lt' (by rw [UInt32.size]; omega)

theorem decode_eq_some {buf : List UInt8} {f : Frame} {n : Nat} :
    decode buf = .ok (some (f, n)) ↔ f.encode <+: buf ∧ f.fits ∧ n = f.encode.length := by
  rw [length_encode]
  constructor
  · intro h
    rcases decode_cases buf with ⟨-, hnone⟩ | ⟨w, rest, rfl, hw⟩
    · rw [hnone] at h
      simp at h
    · rw [hw] at h
      obtain ⟨hpre, hlen, hfits, rfl⟩ := decodeLen_eq_some.mp h
      refine ⟨?_, hfits, rfl⟩
      rw [encode_eq, ← hlen, UInt32.ofNat_toNat]
      exact (List.prefix_append_right_inj _).mpr hpre
  · rintro ⟨⟨more, rfl⟩, hfits, rfl⟩
    rw [encode_eq, List.append_assoc, decode_toBeBytes]
    exact decodeLen_eq_some.mpr ⟨List.prefix_append .., toNat_len hfits, hfits, rfl⟩

theorem decodeBody_append {len : Nat} {rest : List UInt8} (hshort : 5 ≤ len)
    (hlen : len ≤ rest.length) (more : List UInt8) :
    decodeBody len (rest ++ more) = decodeBody len rest := by
  match rest, hlen with
  | kind :: a :: b :: c :: d :: m, hlen =>
    have htake : len - 5 ≤ m.length := by
      simp at hlen
      omega
    show decodeBody len (kind :: a :: b :: c :: d :: (m ++ more)) = _
    rw [decodeBody, decodeBody, List.take_append_of_le_length htake]
  | [], h | [_], h | [_, _], h | [_, _, _], h | [_, _, _, _], h =>
    simp at h
    omega

theorem decodeLen_append {len : Nat} {rest : List UInt8} (h : decodeLen len rest ≠ .ok none)
    (more : List UInt8) : decodeLen len (rest ++ more) = decodeLen len rest := by
  have hlen : rest.length ≤ (rest ++ more).length := by simp
  unfold decodeLen at h ⊢
  by_cases hmax : MAX_FRAME < len + 4
  · rw [if_pos hmax, if_pos hmax]
  by_cases hshort : len < 5
  · rw [if_neg hmax, if_neg hmax, if_pos hshort, if_pos hshort]
  rw [if_neg hmax, if_neg hshort] at h ⊢
  have hrest : ¬ rest.length < len := fun hlt => h (if_pos hlt)
  rw [if_neg hmax, if_neg hshort, if_neg hrest, if_neg (by omega)]
  exact decodeBody_append (by omega) (by omega) more

/-- An answer does not change with the bytes that follow. -/
theorem decode_append {buf : List UInt8} (h : decode buf ≠ .ok none) (more : List UInt8) :
    decode (buf ++ more) = decode buf := by
  rcases decode_cases buf with ⟨-, hnone⟩ | ⟨w, rest, rfl, hw⟩
  · exact absurd hnone h
  · rw [hw] at h ⊢
    rw [List.append_assoc, decode_toBeBytes, decodeLen_append h]

/-- The wire format as a code of the frames that fit. -/
def codec : Codec UInt8 Frame FrameError where
  decode := decode
  used h := by
    obtain ⟨hpre, -, rfl⟩ := decode_eq_some.mp h
    exact ⟨by rw [length_encode]; omega, hpre.length_le⟩
  stable h hr more := by
    subst h
    exact decode_append hr more
  encode := encode
  fits := fits
  decode_encode {a more n} := by
    rw [decode_eq_some]
    exact and_iff_right (List.prefix_append ..)
  encode_decode h := by
    obtain ⟨hpre, -, rfl⟩ := decode_eq_some.mp h
    exact List.prefix_iff_eq_take.mp hpre

/-! ### The stream -/

/-- What a peer that reads `buf` decodes, byte by byte as it was sent. -/
structure Lossless (fs : List Frame) : Prop where
  /-- No bytes make `decode` panic. -/
  total : ∀ buf, (decode? buf).isSome
  /-- A decoded frame is encoded to the bytes it was decoded from. -/
  reencode : ∀ buf f n, decode? buf = some (.ok (some (f, n))) → f.encode = buf.take n
  /-- A decode takes exactly the bytes of one frame. -/
  whole : ∀ f ∈ fs, ∀ more, decode? (f.encode ++ more) = some (.ok (some (f, f.encode.length)))
  /-- A proper prefix is incomplete. -/
  incomplete : ∀ f ∈ fs, ∀ pre, pre <+: f.encode → pre ≠ f.encode → decode? pre = some (.ok none)
  /-- The chunks the frames arrive in do not matter. -/
  stream : ∀ chunks, chunks.flatten = fs.flatMap encode → codec.reads chunks = ⟨fs, .ok []⟩

/-- The frames of one side reach the other exactly when each is within the limit, which
`encode` does not check. -/
theorem lossless_iff (fs : List Frame) : Lossless fs ↔ ∀ f ∈ fs, f.fits := by
  constructor
  · intro h f hf
    have hd := h.whole f hf []
    rw [decode?_eq, Option.some.injEq] at hd
    exact (decode_eq_some.mp hd).2.1
  · intro h
    refine ⟨fun buf => ?_, fun buf f n hd => ?_, fun f hf more => ?_, fun f hf pre hpre hne => ?_,
      fun chunks hchunks => ?_⟩
    · rw [decode?_eq]
      rfl
    · rw [decode?_eq, Option.some.injEq] at hd
      exact codec.encode_decode hd
    · rw [decode?_eq]
      exact congrArg some (Codec.decode_of_fits (c := codec) (h f hf) more)
    · rw [decode?_eq]
      exact congrArg some (Codec.decode_prefixed (c := codec) (h f hf) hpre hne)
    · rw [Framing.reads_eq rfl, hchunks]
      have hread : codec.read (fs.flatMap codec.encode ++ []) = ⟨fs, .ok []⟩ :=
        (Codec.read_eq_iff rfl).mpr h
      rwa [List.append_nil] at hread

def ascii (s : String) : List UInt8 := s.toList.map fun c => .ofNat c.toNat

def destroyedEvent : List UInt8 :=
  ascii "\x7b\"ts\":\"2026-01-01T00:00:00Z\",\"lab\":\"a\",\"event\":\"destroyed\"\x7d"

/-- The JSON of an `End` that answers a `ReadEvents` with `n` events after the first. -/
def eventsEnd (n : Nat) : List UInt8 :=
  ascii "\x7b\"t\":\"end\",\"ok\":\x7b\"result\":\"events\",\"events\":[" ++ destroyedEvent ++
    (List.replicate n (ascii "," ++ destroyedEvent)).flatten ++ ascii "],\"next\":0\x7d\x7d"

theorem length_eventsEnd (n : Nat) : (eventsEnd n).length = 116 + n * 60 := by
  have hevent : destroyedEvent.length = 59 := by decide +kernel
  have hcomma : (ascii ",").length = 1 := by decide +kernel
  have htail : (ascii "],\"next\":0\x7d\x7d").length = 12 := by decide +kernel
  have hhead : (ascii "\x7b\"t\":\"end\",\"ok\":\x7b\"result\":\"events\",\"events\":[").length = 45 := by
    decide +kernel
  simp only [eventsEnd, List.length_append, List.length_flatten, List.map_replicate,
    List.sum_replicate, smul_eq_mul, hevent, hcomma, htail, hhead]
  omega

/-- A frame over the limit is rejected, as long as its length fits its field. -/
theorem decode?_tooLarge {f : Frame} (hmax : MAX_FRAME < f.len + 4) (hlen : f.len < 2 ^ 32) :
    decode? f.encode = some (.error (.tooLarge (f.len + 4))) := by
  have hcast : (UInt32.ofNat f.len).toNat = f.len := UInt32.toNat_ofNat_of_lt' hlen
  rw [decode?_eq, encode_eq, decode_toBeBytes, hcast, decodeLen, if_pos hmax]

theorem message_len (call : UInt32) (json : List UInt8) : (message call json).len = json.length + 5 := by
  simp [len, head, body]
  omega

theorem not_lossless_of_tooLarge {call : UInt32} {json : List UInt8}
    (hmax : MAX_FRAME < json.length + 9) (hlen : json.length < 2 ^ 32 - 5) :
    ¬ Lossless [.message call json] ∧
      decode? (encode (.message call json)) = some (.error (.tooLarge (json.length + 9))) := by
  have hl := message_len call json
  have hd := decode?_tooLarge (f := message call json) (by omega) (by omega)
  rw [hl] at hd
  refine ⟨fun h => ?_, hd⟩
  have hwhole := h.whole _ List.mem_cons_self []
  rw [List.append_nil, hd] at hwhole
  cases hwhole

/-- The events that two generations of a log hold are too many for one frame. -/
theorem eventsEnd_rejected :
    ¬ Lossless [.message 1 (eventsEnd 300000)] ∧
      decode? (encode (.message 1 (eventsEnd 300000))) =
        some (.error (.tooLarge ((eventsEnd 300000).length + 9))) := by
  have hlen := length_eventsEnd 300000
  apply not_lossless_of_tooLarge
  · rw [hlen, MAX_FRAME_eq]
    norm_num
  · rw [hlen]
    norm_num

end Frame

end NlinkLab.Api
