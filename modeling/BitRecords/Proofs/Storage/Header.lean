import Mathlib.Algebra.BigOperators.Ring.Finset
import Mathlib.Algebra.GroupWithZero.Nat
import BitRecords.Proofs.Bits.LittleEndian
import BitRecords.Storage.SnapshotHeader

/-!
# Snapshot headers as bytes

A header is read from all bytes that are long enough and start with the mark of a snapshot, and
from no others. The numbers in it stand at fixed places of the bytes, least significant first.
Writing a header gives the bytes back that it was read from, and reading the bytes that a header
was written to gives the header back. What comes after the header is neither read nor changed.
-/

namespace BitRecords

/-- Bytes stand for the sum of their values at the powers of 256. -/
theorem ofLittleEndian_eq_sum (bytes : List UInt8) :
    ofLittleEndian bytes = ∑ i ∈ Finset.range bytes.length, (bytes.getD i 0).toNat * 256 ^ i := by
  induction bytes with
  | nil => rfl
  | cons b rest ih =>
    have shifted : ∑ i ∈ Finset.range rest.length, (rest.getD i 0).toNat * 256 ^ (i + 1) =
        256 * ofLittleEndian rest := by
      rw [ih, Finset.mul_sum]
      refine Finset.sum_congr rfl fun i _ => ?_
      rw [pow_succ']
      exact Nat.mul_left_comm _ _ _
    rw [ofLittleEndian, List.length_cons, Finset.sum_range_succ']
    simp only [List.getD_cons_succ, List.getD_cons_zero, pow_zero, Nat.mul_one]
    rw [shifted, Nat.add_comm]

namespace SnapshotHeader

/-- The number that the bytes from `start` up to `stop` stand for. -/
def littleEndian (bytes : List UInt8) (start stop : Nat) : Nat :=
  ∑ i ∈ Finset.range (stop - start), (bytes.getD (start + i) 0).toNat * 256 ^ i

variable {bytes : List UInt8} {start count : Nat}

theorem numberAt_eq (inside : start + count ≤ bytes.length) :
    numberAt bytes start count = littleEndian bytes start (start + count) := by
  have length : ((bytes.drop start).take count).length = count := by
    rw [List.length_take, List.length_drop]
    omega
  rw [numberAt, littleEndian, ofLittleEndian_eq_sum, length, Nat.add_sub_cancel_left]
  refine Finset.sum_congr rfl fun i below => ?_
  have kept : i < count := Finset.mem_range.mp below
  simp [List.getD_eq_getElem?_getD, kept]

theorem numberAt_lt (bytes : List UInt8) (start count : Nat) :
    numberAt bytes start count < 256 ^ count := by
  refine (ofLittleEndian_lt _).trans_le (Nat.pow_le_pow_right (by decide) ?_)
  rw [List.length_take]
  exact Nat.min_le_left _ _

theorem toNat_numberAt_word (bytes : List UInt8) (start : Nat) :
    (UInt64.ofNat (numberAt bytes start 8)).toNat = numberAt bytes start 8 :=
  UInt64.toNat_ofNat_of_lt' (numberAt_lt bytes start 8)

theorem toNat_numberAt_half (bytes : List UInt8) (start : Nat) :
    (UInt32.ofNat (numberAt bytes start 4)).toNat = numberAt bytes start 4 :=
  UInt32.toNat_ofNat_of_lt' (numberAt_lt bytes start 4)

/-- A number that was found in bytes is written as these bytes. -/
theorem toLittleEndian_numberAt (inside : start + count ≤ bytes.length) :
    toLittleEndian count (numberAt bytes start count) = (bytes.drop start).take count := by
  have length : ((bytes.drop start).take count).length = count := by
    rw [List.length_take, List.length_drop]
    omega
  calc toLittleEndian count (numberAt bytes start count)
      = toLittleEndian ((bytes.drop start).take count).length (numberAt bytes start count) := by
        rw [length]
    _ = (bytes.drop start).take count := toLittleEndian_ofLittleEndian _

@[simp] theorem length_toBytes (h : SnapshotHeader) : h.toBytes.length = size := by
  simp [toBytes, magic, size]

theorem writeTo_eq_ok {buffer : List UInt8} (room : size ≤ buffer.length) (h : SnapshotHeader) :
    h.writeTo buffer = .ok (h.toBytes ++ buffer.drop size) :=
  if_neg (Nat.not_lt.mpr room)

theorem writeTo_eq_error {buffer : List UInt8} (short : buffer.length < size)
    (h : SnapshotHeader) : h.writeTo buffer = .error (.headerTooShort buffer.length) :=
  if_pos short

/-- What a buffer holds after a header was written to it or was refused. -/
def leaves (h : SnapshotHeader) (buffer : List UInt8) : List UInt8 :=
  (h.writeTo buffer).toOption.getD buffer

/-- The mark of a snapshot, as a text. -/
theorem magic_eq : magic = "SSTORE01".toUTF8.data.toList := by
  decide +kernel

theorem ofBytes_isOk (bytes : List UInt8) :
    (∃ h, ofBytes bytes = .ok h) ↔
      size ≤ bytes.length ∧ "SSTORE01".toUTF8.data.toList <+: bytes := by
  rw [← magic_eq, List.prefix_iff_eq_take, show magic.length = 8 from rfl, eq_comm]
  unfold ofBytes
  split
  · next short => exact iff_of_false (by simp) fun both => absurd both.1 (Nat.not_le.mpr short)
  · next enough =>
    split
    · next foreign => exact iff_of_false (by simp) fun both => foreign both.2
    · next marked =>
      exact iff_of_true ⟨_, rfl⟩ ⟨Nat.not_lt.mp enough, Decidable.not_not.mp marked⟩

/-- What a header was read from is marked and has its numbers. -/
theorem numbers_of_ofBytes {h : SnapshotHeader} (read : ofBytes bytes = .ok h) :
    bytes.take 8 = magic ∧ h.fingerprint.toNat = numberAt bytes 8 8 ∧
    h.capacity.toNat = numberAt bytes 16 8 ∧ h.rowStride.toNat = numberAt bytes 24 8 ∧
    h.segments.toNat = numberAt bytes 32 4 ∧ h.lists.toNat = numberAt bytes 36 4 := by
  unfold ofBytes at read
  split at read
  · cases read
  · split at read
    · cases read
    · next marked =>
      cases read
      exact ⟨Decidable.not_not.mp marked, toNat_numberAt_word bytes 8,
        toNat_numberAt_word bytes 16, toNat_numberAt_word bytes 24, toNat_numberAt_half bytes 32,
        toNat_numberAt_half bytes 36⟩

theorem length_of_ofBytes {h : SnapshotHeader} (read : ofBytes bytes = .ok h) :
    40 ≤ bytes.length :=
  ((ofBytes_isOk bytes).mp ⟨h, read⟩).1

/-- A header has the bytes that it was read from. -/
theorem toBytes_of_ofBytes {h : SnapshotHeader} (read : ofBytes bytes = .ok h) :
    h.toBytes = bytes.take size := by
  have room := length_of_ofBytes read
  obtain ⟨marked, fingerprint, capacity, rowStride, segments, lists⟩ := numbers_of_ofBytes read
  have places : bytes.take size = bytes.take 8 ++ (bytes.drop 8).take 8 ++
      (bytes.drop 16).take 8 ++ (bytes.drop 24).take 8 ++ (bytes.drop 32).take 4 ++
      (bytes.drop 36).take 4 := by
    simp only [← List.take_add, size]
  rw [toBytes, places, marked, fingerprint, capacity, rowStride, segments, lists,
    toLittleEndian_numberAt (by omega), toLittleEndian_numberAt (by omega),
    toLittleEndian_numberAt (by omega), toLittleEndian_numberAt (by omega),
    toLittleEndian_numberAt (by omega)]

theorem toBytes_inj {h h' : SnapshotHeader} (same : h.toBytes = h'.toBytes) : h = h' := by
  obtain ⟨same, lists⟩ := List.append_inj' same (by simp)
  obtain ⟨same, segments⟩ := List.append_inj' same (by simp)
  obtain ⟨same, rowStride⟩ := List.append_inj' same (by simp)
  obtain ⟨same, capacity⟩ := List.append_inj' same (by simp)
  obtain ⟨-, fingerprint⟩ := List.append_inj' same (by simp)
  have word {a b : UInt64} (same : toLittleEndian 8 a.toNat = toLittleEndian 8 b.toNat) : a = b :=
    UInt64.toNat.inj (toLittleEndian_inj a.toNat_lt b.toNat_lt same)
  have half {a b : UInt32} (same : toLittleEndian 4 a.toNat = toLittleEndian 4 b.toNat) : a = b :=
    UInt32.toNat.inj (toLittleEndian_inj a.toNat_lt b.toNat_lt same)
  cases h
  cases h'
  rw [SnapshotHeader.mk.injEq]
  exact ⟨word fingerprint, word capacity, word rowStride, half segments, half lists⟩

/-- A header is read back from its bytes, whatever comes after them. -/
theorem ofBytes_toBytes_append (h : SnapshotHeader) (rest : List UInt8) :
    ofBytes (h.toBytes ++ rest) = .ok h := by
  have enough : size ≤ (h.toBytes ++ rest).length := by
    rw [List.length_append, length_toBytes]
    exact Nat.le_add_right _ _
  have marked : magic <+: h.toBytes ++ rest := by
    simp only [toBytes, List.append_assoc]
    exact List.prefix_append _ _
  obtain ⟨h', read⟩ := (ofBytes_isOk _).mpr ⟨enough, magic_eq ▸ marked⟩
  have bytes := toBytes_of_ofBytes read
  rw [List.take_left' h.length_toBytes] at bytes
  rw [read, toBytes_inj bytes]

/-- The numbers of a header are those that the bytes have at its places. -/
structure Describes (h : SnapshotHeader) (bytes : List UInt8) : Prop where
  fingerprint : h.fingerprint.toNat = littleEndian bytes 8 16
  capacity : h.capacity.toNat = littleEndian bytes 16 24
  rowStride : h.rowStride.toNat = littleEndian bytes 24 32
  segments : h.segments.toNat = littleEndian bytes 32 36
  lists : h.lists.toNat = littleEndian bytes 36 40

theorem describes_of_ofBytes {h : SnapshotHeader} (read : ofBytes bytes = .ok h) :
    h.Describes bytes := by
  have room := length_of_ofBytes read
  obtain ⟨-, fingerprint, capacity, rowStride, segments, lists⟩ := numbers_of_ofBytes read
  exact
    { fingerprint := fingerprint.trans (numberAt_eq (by omega))
      capacity := capacity.trans (numberAt_eq (by omega))
      rowStride := rowStride.trans (numberAt_eq (by omega))
      segments := segments.trans (numberAt_eq (by omega))
      lists := lists.trans (numberAt_eq (by omega)) }

/-- A header tells the numbers of a snapshot. Of segments and lists it counts as many as go
into 32 bits. -/
structure Tells (number : Fingerprint → UInt64) (h : SnapshotHeader) (s : Snapshot) : Prop where
  fingerprint : h.fingerprint = number s.fingerprint
  capacity : h.capacity = s.capacity
  rowStride : h.rowStride = s.rowStride
  segments : h.segments.toNat = s.segments.length % 2 ^ 32
  lists : h.lists.toNat = s.lists.length % 2 ^ 32

theorem tells_header (number : Fingerprint → UInt64) (s : Snapshot) :
    (s.header number).Tells number s where
  fingerprint := rfl
  capacity := rfl
  rowStride := rfl
  segments := UInt32.toNat_ofNat'
  lists := UInt32.toNat_ofNat'

theorem leaves_eq {buffer : List UInt8} (room : size ≤ buffer.length) (h : SnapshotHeader) :
    h.leaves buffer = h.toBytes ++ buffer.drop size := by
  rw [leaves, writeTo_eq_ok room]
  rfl

/-- A header that is written to a buffer takes the place of its first bytes. -/
theorem frame_leaves {buffer : List UInt8} (room : size ≤ buffer.length) (h : SnapshotHeader) :
    (h.leaves buffer).length = buffer.length ∧
      (h.leaves buffer).drop size = buffer.drop size := by
  rw [leaves_eq room, List.drop_left' h.length_toBytes, List.length_append, length_toBytes,
    List.length_drop]
  exact ⟨Nat.add_sub_of_le room, rfl⟩

/-- Bytes and headers stand for each other. The numbers of fingerprints may be any. -/
structure RoundTrips (number : Fingerprint → UInt64) : Prop where
  accepts : ∀ bytes, (∃ h, ofBytes bytes = .ok h) ↔
    40 ≤ bytes.length ∧ "SSTORE01".toUTF8.data.toList <+: bytes
  describes : ∀ bytes h, ofBytes bytes = .ok h → h.Describes bytes
  reproduces : ∀ bytes h buffer, ofBytes bytes = .ok h → 40 ≤ buffer.length →
    h.writeTo buffer = .ok (bytes.take 40 ++ buffer.drop 40)
  writes : ∀ (s : Snapshot) buffer, 40 ≤ buffer.length →
    (s.header number).writeTo buffer = .ok ((s.header number).leaves buffer) ∧
    ((s.header number).leaves buffer).length = buffer.length ∧
    ((s.header number).leaves buffer).drop 40 = buffer.drop 40
  tells : ∀ (s : Snapshot) buffer, 40 ≤ buffer.length →
    ∃ h, ofBytes ((s.header number).leaves buffer) = .ok h ∧ h.Tells number s
  refuses : ∀ (h : SnapshotHeader) buffer, buffer.length < 40 →
    h.writeTo buffer = .error (.headerTooShort buffer.length) ∧ h.leaves buffer = buffer

/-- Nothing is lost between bytes, headers and the snapshots that they describe. -/
theorem header_roundTrips (number : Fingerprint → UInt64) : RoundTrips number where
  accepts := ofBytes_isOk
  describes bytes h := describes_of_ofBytes
  reproduces bytes h buffer read room := by
    rw [writeTo_eq_ok room, toBytes_of_ofBytes read]
    rfl
  writes s buffer room := by
    refine ⟨?_, frame_leaves room _⟩
    rw [leaves_eq room, writeTo_eq_ok room]
  tells s buffer room := by
    refine ⟨s.header number, ?_, tells_header number s⟩
    rw [leaves_eq room, ofBytes_toBytes_append]
  refuses h buffer short := by
    have refused := writeTo_eq_error short h
    refine ⟨refused, ?_⟩
    rw [leaves, refused]
    rfl

/-- The bytes after the mark are counted up here, so each number shows its own place. -/
example : (ofBytes (magic ++ (List.range 32).map UInt8.ofNat)).toOption = some
    { fingerprint := 0x0706050403020100, capacity := 0x0F0E0D0C0B0A0908
      rowStride := 0x1716151413121110, segments := 0x1B1A1918, lists := 0x1F1E1D1C } := by
  decide +kernel

end SnapshotHeader

end BitRecords
