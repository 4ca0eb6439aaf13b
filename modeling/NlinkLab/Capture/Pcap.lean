import NlinkLab.Api.Frame

/-! The packet files of a capture (`capture.rs`): a global header and one record after
another, each flushed as it is written. A reader of such a file gives back the packets, cut
to the snap length, and finds a header or a record that was cut short. -/

namespace NlinkLab.Capture

open Api (toBeBytes fromBeBytes exists_toBeBytes toBeBytes_fromBeBytes)

def PCAP_MAGIC_NS : UInt32 := 0xa1b23c4d
def PCAP_VERSION_MAJOR : UInt16 := 2
def PCAP_VERSION_MINOR : UInt16 := 4
def LINKTYPE_ETHERNET : UInt32 := 1
def PCAP_GLOBAL_HEADER_BYTES : Nat := 24
def PCAP_RECORD_HEADER_BYTES : Nat := 16

/-! ### Words -/

def toLeBytes (n : UInt32) : List UInt8 := (toBeBytes n).reverse

def toLeBytes16 (n : UInt16) : List UInt8 := [.ofNat n.toNat, .ofNat (n.toNat / 2 ^ 8)]

@[simp] theorem length_toLeBytes (n : UInt32) : (toLeBytes n).length = 4 := rfl

/-- The word at the start of a buffer, and the rest of it. -/
def takeWord : List UInt8 → Option (UInt32 × List UInt8)
  | a :: b :: c :: d :: rest => some (fromBeBytes d c b a, rest)
  | _ => none

theorem takeWord_append (n : UInt32) (rest : List UInt8) : takeWord (toLeBytes n ++ rest) = some (n, rest) := by
  obtain ⟨a, b, c, d, hbytes, hn⟩ := exists_toBeBytes n
  rw [toLeBytes, hbytes]
  exact congrArg (fun n => some (n, rest)) hn

theorem takeWord_eq_some {buf rest : List UInt8} {n : UInt32} :
    takeWord buf = some (n, rest) ↔ buf = toLeBytes n ++ rest := by
  refine ⟨fun h => ?_, fun h => h ▸ takeWord_append n rest⟩
  unfold takeWord at h
  split at h
  · cases h
    rw [toLeBytes, toBeBytes_fromBeBytes]
    rfl
  · cases h

/-! ### Writing -/

/-- A packet as `write_packet` is given it. -/
structure Packet where
  sec : UInt32
  nsec : UInt32
  data : List UInt8
  origLen : UInt32
  deriving DecidableEq

/-- The global header of a file. -/
def globalHeader (snapLen : UInt32) : List UInt8 :=
  toLeBytes PCAP_MAGIC_NS ++ toLeBytes16 PCAP_VERSION_MAJOR ++ toLeBytes16 PCAP_VERSION_MINOR ++
    toLeBytes 0 ++ toLeBytes 0 ++ toLeBytes snapLen ++ toLeBytes LINKTYPE_ETHERNET

/-- The bytes of a record whose length field says `inclLen`. -/
def recordBytes (p : Packet) (inclLen : UInt32) : List UInt8 :=
  toLeBytes p.sec ++ toLeBytes p.nsec ++ toLeBytes inclLen ++ toLeBytes p.origLen ++ p.data.take inclLen.toNat

structure PcapWriter where
  snapLen : UInt32
  deriving DecidableEq

/-- The length field of a record; the length is cast to 32 bits before it is bounded. -/
def PcapWriter.inclLen (w : PcapWriter) (p : Packet) : UInt32 :=
  let dataLen := .ofNat p.data.length
  if dataLen ≤ w.snapLen then dataLen else w.snapLen

/-- What `write_packet` writes. -/
def PcapWriter.record (w : PcapWriter) (p : Packet) : List UInt8 := recordBytes p (w.inclLen p)

/-- The packet, cut to the snap length. -/
def Packet.truncate (snapLen : UInt32) (p : Packet) : Packet := { p with data := p.data.take snapLen.toNat }

@[simp] theorem length_globalHeader (snapLen : UInt32) :
    (globalHeader snapLen).length = PCAP_GLOBAL_HEADER_BYTES := rfl

theorem length_recordBytes (p : Packet) (inclLen : UInt32) :
    (recordBytes p inclLen).length = PCAP_RECORD_HEADER_BYTES + min inclLen.toNat p.data.length := by
  simp only [recordBytes, List.length_append, length_toLeBytes, List.length_take, PCAP_RECORD_HEADER_BYTES]

/-! ### Reading -/

/-- Why a record is not read. -/
inductive RecordError where
  | longerThanSnapLen
  deriving DecidableEq

/-- The four words that start a record. -/
def takeRecordHeader (buf : List UInt8) : Option ((UInt32 × UInt32 × UInt32 × UInt32) × List UInt8) := do
  let (sec, buf) ← takeWord buf
  let (nsec, buf) ← takeWord buf
  let (inclLen, buf) ← takeWord buf
  let (origLen, buf) ← takeWord buf
  return ((sec, nsec, inclLen, origLen), buf)

theorem takeRecordHeader_eq_some {buf rest : List UInt8} {sec nsec inclLen origLen : UInt32} :
    takeRecordHeader buf = some ((sec, nsec, inclLen, origLen), rest) ↔
      buf = toLeBytes sec ++ toLeBytes nsec ++ toLeBytes inclLen ++ toLeBytes origLen ++ rest := by
  simp only [takeRecordHeader, Option.bind_eq_bind, Option.bind_eq_some_iff, Prod.exists, takeWord_eq_some,
    Option.pure_def, Option.some.injEq, Prod.mk.injEq, List.append_assoc]
  constructor
  · rintro ⟨_, _, rfl, _, _, rfl, _, _, rfl, _, _, rfl, ⟨rfl, rfl, rfl, rfl⟩, rfl⟩
    rfl
  · rintro rfl
    exact ⟨_, _, rfl, _, _, rfl, _, _, rfl, _, _, rfl, ⟨rfl, rfl, rfl, rfl⟩, rfl⟩

/-- One record of a file. -/
def decodeRecord (snapLen : UInt32) (buf : List UInt8) : Except RecordError (Option (Packet × Nat)) :=
  match takeRecordHeader buf with
  | none => .ok none
  | some ((sec, nsec, inclLen, origLen), rest) =>
    if snapLen < inclLen then .error .longerThanSnapLen
    else if rest.length < inclLen.toNat then .ok none
    else .ok (some (⟨sec, nsec, rest.take inclLen.toNat, origLen⟩, PCAP_RECORD_HEADER_BYTES + inclLen.toNat))

/-- A record as a reader writes it back. -/
def encodeRecord (p : Packet) : List UInt8 := recordBytes p (.ofNat p.data.length)

theorem toNat_ofNat_length {snapLen : UInt32} {data : List UInt8} (h : data.length ≤ snapLen.toNat) :
    (UInt32.ofNat data.length).toNat = data.length :=
  UInt32.toNat_ofNat_of_lt' (h.trans_lt snapLen.toNat_lt)

theorem encodeRecord_eq {snapLen : UInt32} {p : Packet} (h : p.data.length ≤ snapLen.toNat) :
    encodeRecord p = toLeBytes p.sec ++ toLeBytes p.nsec ++ toLeBytes (.ofNat p.data.length) ++
      toLeBytes p.origLen ++ p.data := by
  rw [encodeRecord, recordBytes, toNat_ofNat_length h, List.take_length]

theorem length_encodeRecord {snapLen : UInt32} {p : Packet} (h : p.data.length ≤ snapLen.toNat) :
    (encodeRecord p).length = PCAP_RECORD_HEADER_BYTES + p.data.length := by
  rw [encodeRecord, length_recordBytes, toNat_ofNat_length h, min_self]

theorem decodeRecord_eq_some {snapLen : UInt32} {buf : List UInt8} {p : Packet} {n : Nat} :
    decodeRecord snapLen buf = .ok (some (p, n)) ↔
      encodeRecord p <+: buf ∧ p.data.length ≤ snapLen.toNat ∧ n = PCAP_RECORD_HEADER_BYTES + p.data.length := by
  unfold decodeRecord
  constructor
  · intro h
    split at h
    · cases h
    · rename_i sec nsec inclLen origLen rest hbuf
      split_ifs at h with hsnap hrest
      · cases h
      · obtain ⟨rfl, rfl⟩ := Prod.mk.inj (Option.some.inj (Except.ok.inj h))
        have hlen : (rest.take inclLen.toNat).length = inclLen.toNat := by
          rw [List.length_take]
          omega
        have hle : (rest.take inclLen.toNat).length ≤ snapLen.toNat := by
          rw [hlen]
          exact not_lt.mp fun hlt => hsnap (UInt32.lt_iff_toNat_lt.mpr hlt)
        refine ⟨?_, hle, by rw [hlen]⟩
        rw [encodeRecord_eq hle, takeRecordHeader_eq_some.mp hbuf, hlen, UInt32.ofNat_toNat]
        exact (List.prefix_append_right_inj _).mpr (List.take_prefix ..)
  · rintro ⟨⟨more, rfl⟩, hsnap, rfl⟩
    have hlen := toNat_ofNat_length hsnap
    have hheader := takeRecordHeader_eq_some.mpr (encodeRecord_eq hsnap ▸ List.append_assoc _ p.data more)
    have hle : ¬snapLen < UInt32.ofNat p.data.length := by
      rw [UInt32.lt_iff_toNat_lt, hlen, not_lt]
      exact hsnap
    rw [hheader]
    dsimp only
    rw [if_neg hle, hlen, if_neg (by rw [List.length_append]; omega), List.take_left]

/-- The records of a file, as a code of the packets that are not longer than the snap length. -/
def records (snapLen : UInt32) : Codec UInt8 Packet RecordError where
  decode := decodeRecord snapLen
  used h := by
    obtain ⟨hpre, hfits, rfl⟩ := decodeRecord_eq_some.mp h
    have hle := hpre.length_le
    rw [length_encodeRecord hfits] at hle
    exact ⟨Nat.add_pos_left (by decide) _, hle⟩
  stable {buf r} h hr more := by
    subst h
    unfold decodeRecord at hr ⊢
    cases hbuf : takeRecordHeader buf with
    | none => simp [hbuf] at hr
    | some e =>
      obtain ⟨⟨sec, nsec, inclLen, origLen⟩, rest⟩ := e
      have hmore : takeRecordHeader (buf ++ more) = some ((sec, nsec, inclLen, origLen), rest ++ more) := by
        rw [takeRecordHeader_eq_some, takeRecordHeader_eq_some.mp hbuf, List.append_assoc]
      rw [hbuf] at hr
      rw [hmore]
      dsimp only at hr ⊢
      by_cases hsnap : snapLen < inclLen
      · rw [if_pos hsnap, if_pos hsnap]
      · rw [if_neg hsnap] at hr ⊢
        have hrest : ¬rest.length < inclLen.toNat := fun hlt => hr (if_pos hlt)
        have hlong : ¬(rest ++ more).length < inclLen.toNat := by
          rw [List.length_append]
          omega
        rw [if_neg hsnap, if_neg hrest, if_neg hlong, List.take_append_of_le_length (not_lt.mp hrest)]
  encode := encodeRecord
  fits p := p.data.length ≤ snapLen.toNat
  decode_encode {p more n} := by
    rw [decodeRecord_eq_some]
    refine ⟨fun ⟨_, hfits, hn⟩ => ⟨hfits, hn.trans (length_encodeRecord hfits).symm⟩, fun ⟨hfits, hn⟩ => ?_⟩
    exact ⟨List.prefix_append .., hfits, hn.trans (length_encodeRecord hfits)⟩
  encode_decode h := by
    obtain ⟨hpre, hfits, rfl⟩ := decodeRecord_eq_some.mp h
    rw [← length_encodeRecord hfits]
    exact List.prefix_iff_eq_take.mp hpre

/-- The snap length and the packets of a well-formed file. -/
def readPcap (file : List UInt8) : Option (UInt32 × List Packet) :=
  match takeWord (file.drop 16) with
  | none => none
  | some (snapLen, _) =>
    if globalHeader snapLen <+: file then
      match (records snapLen).read (file.drop PCAP_GLOBAL_HEADER_BYTES) with
      | ⟨packets, .ok []⟩ => some (snapLen, packets)
      | _ => none
    else none

/-! ### Whole and cut files -/

/-- What `write_packet` writes is the packet cut to the snap length, where the cast does not
make the length less than it was. -/
theorem record_eq {w : PcapWriter} {p : Packet}
    (h : min (p.data.length % 2 ^ 32) w.snapLen.toNat = min p.data.length w.snapLen.toNat) :
    w.record p = encodeRecord (p.truncate w.snapLen) := by
  have hmin : (w.inclLen p).toNat = min p.data.length w.snapLen.toNat := by
    rw [← h, ← UInt32.toNat_ofNat', PcapWriter.inclLen]
    split_ifs with hle
    · exact (min_eq_left (UInt32.le_iff_toNat_le.mp hle)).symm
    · exact (min_eq_right (le_of_not_ge fun hge => hle (UInt32.le_iff_toNat_le.mpr hge))).symm
  have hlen : (p.truncate w.snapLen).data.length = min p.data.length w.snapLen.toNat := by
    rw [Packet.truncate, List.length_take, min_comm]
  have hfits : (p.truncate w.snapLen).data.length ≤ w.snapLen.toNat := hlen ▸ min_le_right _ _
  have hword : w.inclLen p = .ofNat (p.truncate w.snapLen).data.length := by
    rw [← UInt32.toNat_inj, toNat_ofNat_length hfits, hmin, hlen]
  rw [encodeRecord_eq hfits, ← hword, PcapWriter.record, recordBytes, hmin]
  congr 1
  rw [Packet.truncate]
  rcases le_total p.data.length w.snapLen.toNat with hle | hle
  · rw [min_eq_left hle, List.take_length, List.take_of_length_le hle]
  · rw [min_eq_right hle]

theorem drop_globalHeader (snapLen : UInt32) (rest : List UInt8) :
    (globalHeader snapLen ++ rest).drop PCAP_GLOBAL_HEADER_BYTES = rest := List.drop_left' rfl

theorem takeWord_globalHeader (snapLen : UInt32) (rest : List UInt8) :
    ∃ more, takeWord ((globalHeader snapLen ++ rest).drop 16) = some (snapLen, more) :=
  ⟨_, takeWord_append snapLen (toLeBytes LINKTYPE_ETHERNET ++ rest)⟩

theorem readPcap_globalHeader (snapLen : UInt32) (rest : List UInt8) :
    readPcap (globalHeader snapLen ++ rest) =
      match (records snapLen).read rest with
      | ⟨packets, .ok []⟩ => some (snapLen, packets)
      | _ => none := by
  obtain ⟨more, hmore⟩ := takeWord_globalHeader snapLen rest
  unfold readPcap
  rw [hmore, drop_globalHeader]
  exact if_pos (List.prefix_append ..)

theorem read_records {snapLen : UInt32} {packets : List Packet} (h : ∀ p ∈ packets, p.data.length ≤ snapLen.toNat)
    (rest : List UInt8) : (records snapLen).read (packets.flatMap encodeRecord ++ rest) =
      ((records snapLen).read rest).after packets :=
  (records snapLen).read_encode h rest

/-- A file that holds a header and whole records is read back. -/
theorem readPcap_whole {snapLen : UInt32} {packets : List Packet}
    (h : ∀ p ∈ packets, p.data.length ≤ snapLen.toNat) :
    readPcap (globalHeader snapLen ++ packets.flatMap encodeRecord) = some (snapLen, packets) := by
  have hnil : (records snapLen).read [] = ⟨[], .ok []⟩ := Framing.read_of_none rfl
  have hread := read_records h []
  rw [List.append_nil, hnil] at hread
  rw [readPcap_globalHeader, hread]
  simp [Reader.after]

/-- A file whose last record is cut short is not well formed. -/
theorem readPcap_cut {snapLen : UInt32} {packets : List Packet} {p : Packet}
    (h : ∀ q ∈ packets, q.data.length ≤ snapLen.toNat) (hp : p.data.length ≤ snapLen.toNat) {n : Nat} (hpos : 0 < n)
    (hn : n < (encodeRecord p).length) :
    readPcap (globalHeader snapLen ++ (packets.flatMap encodeRecord ++ (encodeRecord p).take n)) = none := by
  have hlen : ((encodeRecord p).take n).length = n := List.length_take_of_le hn.le
  have hnone : (records snapLen).decode ((encodeRecord p).take n) = .ok none :=
    (records snapLen).decode_prefixed hp (List.take_prefix ..) fun heq =>
      hn.ne (hlen.symm.trans (congrArg List.length heq))
  rw [readPcap_globalHeader, read_records h, Framing.read_of_none hnone]
  cases hcut : (encodeRecord p).take n with
  | nil =>
    rw [hcut] at hlen
    exact absurd hlen hpos.ne
  | cons b bs => rfl

end NlinkLab.Capture
