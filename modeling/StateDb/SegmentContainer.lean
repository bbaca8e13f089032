/-
  StateDb/SegmentContainer.lean
  =============================
  **Objects in whole blocks** (`segment_container.h`).

  A container writes a preamble and its object, and fills up to a whole number of blocks.
  The number of blocks goes through 16 bits and their size through 32, and holds the object
  as long as neither is too much (`reservesLeast_iff`).

  The reader counts the blocks anew.  It skips the padding by `seekg`, which wants a position
  and is given a count; so it does not stand where the next container begins
  (`readsInSequence_iff`).
-/
import StateDb.Lib.Stream
import StateDb.NetMessage
import Mathlib.Order.Bounds.Defs

namespace StateDb

open Lib

/-! ## Blocks -/

/-- The blocks that `size` bytes take, as the writer and the reader count them. -/
def blocksFor (size blockSize : Nat) : Nat :=
  size / blockSize + if size % blockSize = 0 then 0 else 1

section Blocks

variable {size blockSize : Nat}

theorem le_blocksFor_mul (hpos : 0 < blockSize) : size ≤ blocksFor size blockSize * blockSize := by
  have hsum := Nat.div_add_mod' size blockSize
  have hrest := Nat.mod_lt size hpos
  unfold blocksFor
  split
  · rw [Nat.add_zero]
    omega
  · rw [Nat.add_mul, Nat.one_mul]
    omega

theorem blocksFor_le {count : Nat} (h : size ≤ count * blockSize) :
    blocksFor size blockSize ≤ count := by
  have hdiv : size / blockSize ≤ count := Nat.div_le_of_le_mul (by rwa [Nat.mul_comm])
  unfold blocksFor
  split
  · exact hdiv
  · rename_i hrest
    have hne : size / blockSize ≠ count := by
      rintro rfl
      have hsum := Nat.div_add_mod' size blockSize
      omega
    omega

/-- They are the least multiple of their size that the object fits in. -/
theorem isLeast_blocksFor (hpos : 0 < blockSize) :
    IsLeast {m | blockSize ∣ m ∧ size ≤ m} (blocksFor size blockSize * blockSize) := by
  refine ⟨⟨Nat.dvd_mul_left _ _, le_blocksFor_mul hpos⟩, ?_⟩
  rintro m ⟨⟨count, rfl⟩, hle⟩
  rw [Nat.mul_comm blockSize count] at hle ⊢
  exact Nat.mul_le_mul_right _ (blocksFor_le hle)

/-- With one block less the object does not fit. -/
theorem blocksFor_mul_lt (hpos : 0 < blockSize) :
    blocksFor size blockSize * blockSize < size + blockSize := by
  have hsum := Nat.div_add_mod' size blockSize
  unfold blocksFor
  split
  · rw [Nat.add_zero]
    omega
  · rw [Nat.add_mul, Nat.one_mul]
    omega

end Blocks

/-! ## The preamble -/

/-- `segmenent_preamble`. -/
structure SegmentPreamble where
  blockSize : UInt32
  blocksCount : UInt16 := 0
  safe : Bool := false
  hash : UInt64 := 0
  /-- The byte that the compiler leaves between `safe` and `hash`. -/
  gap : UInt8 := 0
deriving DecidableEq, Repr

namespace SegmentPreamble

/-- `blocks_count * block_size`, which is a `uint32_t`. -/
def reserved (p : SegmentPreamble) : Nat := (p.blocksCount.toUInt32 * p.blockSize).toNat

/-- `adjust_blocks_count`, for an object of this size. -/
def adjustBlocksCount (p : SegmentPreamble) (size : Nat) : SegmentPreamble :=
  { p with blocksCount := UInt16.ofNat (blocksFor size p.blockSize.toNat) }

/-- The preamble in the file. -/
def bytes (p : SegmentPreamble) : List UInt8 :=
  le 4 p.blockSize.toNat ++ le 2 p.blocksCount.toNat ++ [if p.safe then 1 else 0, p.gap] ++
    le 8 p.hash.toNat

def ofBytes (bytes : List UInt8) : SegmentPreamble where
  blockSize := UInt32.ofNat (leNat (bytes.take 4))
  blocksCount := UInt16.ofNat (leNat ((bytes.drop 4).take 2))
  safe := bytes.getD 6 0 ≠ 0
  hash := UInt64.ofNat (leNat (bytes.drop 8))
  gap := bytes.getD 7 0

@[simp] theorem length_bytes (p : SegmentPreamble) : p.bytes.length = 16 := by
  simp [bytes]

/-- A preamble is read as it was written. -/
theorem ofBytes_bytes (p : SegmentPreamble) : ofBytes p.bytes = p := by
  have hsize : p.bytes.take 4 = le 4 p.blockSize.toNat := by
    rw [bytes, List.append_assoc, List.append_assoc, List.take_left' (length_le 4 _)]
  have hcount : (p.bytes.drop 4).take 2 = le 2 p.blocksCount.toNat := by
    rw [bytes, List.append_assoc, List.append_assoc, List.drop_left' (length_le 4 _),
      List.take_left' (length_le 2 _)]
  have hhash : p.bytes.drop 8 = le 8 p.hash.toNat := by
    rw [bytes, List.drop_left' (by simp)]
  have hsafe : p.bytes.getD 6 0 = if p.safe then 1 else 0 := by
    simp [bytes, le]
  have hgap : p.bytes.getD 7 0 = p.gap := by
    simp [bytes, le]
  rw [ofBytes, hsize, hcount, hhash, hsafe, hgap, leNat_le p.blockSize.toNat_lt,
    leNat_le p.blocksCount.toNat_lt, leNat_le p.hash.toNat_lt, UInt32.ofNat_toNat,
    UInt16.ofNat_toNat, UInt64.ofNat_toNat]
  obtain ⟨blockSize, blocksCount, safe, hash, gap⟩ := p
  cases safe <;> rfl

theorem reserved_adjustBlocksCount (p : SegmentPreamble) (size : Nat) :
    (p.adjustBlocksCount size).reserved =
      blocksFor size p.blockSize.toNat % 65536 * p.blockSize.toNat % 4294967296 := by
  simp only [reserved, adjustBlocksCount, UInt32.toNat_mul, UInt16.toNat_toUInt32,
    UInt16.toNat_ofNat', Nat.reducePow]

/-! ## What is reserved -/

variable {p : SegmentPreamble}

theorem blockSize_pos (hblock : p.blockSize ≠ 0) : 0 < p.blockSize.toNat :=
  Nat.pos_of_ne_zero fun h => hblock (UInt32.toNat_inj.mp h)

/-- What is reserved is right when the object fits in it. -/
theorem reserved_of_le (hblock : p.blockSize ≠ 0) {size : Nat}
    (hle : size ≤ (p.adjustBlocksCount size).reserved) :
    (p.adjustBlocksCount size).reserved = blocksFor size p.blockSize.toNat * p.blockSize.toNat := by
  have hpos := blockSize_pos hblock
  have hlt : blocksFor size p.blockSize.toNat * p.blockSize.toNat < size + p.blockSize.toNat :=
    blocksFor_mul_lt hpos
  have hsmall := p.blockSize.toNat_lt
  rw [reserved_adjustBlocksCount] at hle ⊢
  generalize blocksFor size p.blockSize.toNat = count at hlt hle ⊢
  generalize p.blockSize.toNat = b at hpos hlt hsmall hle ⊢
  -- a count or a product that is cut is too small by a block at least
  have hmod : count % 65536 * b % 4294967296 ≤ count % 65536 * b := Nat.mod_le _ _
  have hcount : count < 65536 := by
    by_contra hge
    have hcut : (count % 65536 + 1) * b ≤ count * b := Nat.mul_le_mul_right _ (by omega)
    rw [Nat.add_mul, Nat.one_mul] at hcut
    omega
  rw [Nat.mod_eq_of_lt hcount] at hle ⊢
  omega

/-- The blocks are the least that hold the object, and so the padding is less than one. -/
def ReservesLeast (p : SegmentPreamble) (size : Nat) : Prop :=
  IsLeast {m | p.blockSize.toNat ∣ m ∧ size ≤ m} (p.adjustBlocksCount size).reserved ∧
    0 ≤ ((p.adjustBlocksCount size).reserved : Int) - size ∧
    ((p.adjustBlocksCount size).reserved : Int) - size < p.blockSize.toNat

/-- The count has 16 bits, and what is reserved 32. -/
theorem reservesLeast_iff (hblock : p.blockSize ≠ 0) (size : Nat) : p.ReservesLeast size ↔
    blocksFor size p.blockSize.toNat < 65536 ∧
      blocksFor size p.blockSize.toNat * p.blockSize.toNat < 4294967296 := by
  have hpos := blockSize_pos hblock
  have hleast : IsLeast _ (blocksFor size p.blockSize.toNat * p.blockSize.toNat) :=
    isLeast_blocksFor hpos
  have hle : size ≤ blocksFor size p.blockSize.toNat * p.blockSize.toNat := le_blocksFor_mul hpos
  have hlt : blocksFor size p.blockSize.toNat * p.blockSize.toNat < size + p.blockSize.toNat :=
    blocksFor_mul_lt hpos
  unfold ReservesLeast
  constructor
  · rintro ⟨hreserved, -, -⟩
    have heq := hreserved.unique hleast
    rw [reserved_adjustBlocksCount] at heq
    have hmod : blocksFor size p.blockSize.toNat % 65536 * p.blockSize.toNat % 4294967296 ≤
        blocksFor size p.blockSize.toNat % 65536 * p.blockSize.toNat := Nat.mod_le _ _
    have hcount : blocksFor size p.blockSize.toNat ≤ blocksFor size p.blockSize.toNat % 65536 :=
      Nat.le_of_mul_le_mul_right (heq ▸ hmod) hpos
    refine ⟨by omega, ?_⟩
    rw [← heq]
    exact Nat.mod_lt _ (by decide)
  · rintro ⟨hcount, hproduct⟩
    rw [reserved_adjustBlocksCount, Nat.mod_eq_of_lt hcount, Nat.mod_eq_of_lt hproduct]
    exact ⟨hleast, by omega, by omega⟩

/-- An object of 1500 bytes in blocks of 1024. -/
theorem reservesLeast_iff_kilobytes : ReservesLeast { blockSize := 1024 } 1500 :=
  (reservesLeast_iff (by decide) 1500).mpr (by decide)

/-- An object of 65536 bytes in blocks of one byte: the count of the blocks is zero. -/
theorem cut_count_not_reservesLeast : ¬ ReservesLeast { blockSize := 1 } 65536 := by
  rintro ⟨-, hroom, -⟩
  exact absurd hroom (by decide)

end SegmentPreamble

/-! ## The container -/

/-- A `size_t` of an integer, and a `streamoff` of a `size_t`. -/
def asSizeT (n : Int) : Nat := (n % 18446744073709551616).toNat

def asStreamoff (n : Nat) : Int := Int.bmod n 18446744073709551616

theorem asStreamoff_of_lt {n : Nat} (hlt : n < 9223372036854775808) : asStreamoff n = n := by
  unfold asStreamoff
  exact Int.bmod_eq_of_le_mul_two (by omega) (by omega)

structure SegmentContainer (T : Type) where
  preamble : SegmentPreamble
  /-- What `read_from` counts. -/
  blocksCount : Nat := 0
  val : T

namespace SegmentContainer

variable {T : Type} (s : Serial T)

/-- `skip_bytes_o`.  There is no memory of a negative size, and `memset` writes to null. -/
def skipBytesO (count : Int) (o : List UInt8) : Option (List UInt8) :=
  if count < 0 then none else some (o ++ List.replicate count.toNat 0)

/-- `skip_bytes_i`, on a stream that is seekable. -/
def skipBytesI (count : Int) (i : IStream) : IStream := i.seekg count

/-- The preamble after `adjust_blocks_count`. -/
def adjusted (c : SegmentContainer T) : SegmentPreamble :=
  c.preamble.adjustBlocksCount (s.getSize c.val)

/-- `write_to`, behind `o`: the container, and the stream. -/
def writeTo (c : SegmentContainer T) (o : List UInt8) :
    Option (SegmentContainer T × List UInt8) := do
  let c' := { c with preamble := c.adjusted s }
  let start := o ++ c'.preamble.bytes
  let end' := start ++ s.writeTo c.val
  let o' ← skipBytesO (start.length + c'.preamble.reserved - end'.length) end'
  some (c', o')

/-- `read_from`. -/
def readFrom (c : SegmentContainer T) (i : IStream) : SegmentContainer T × IStream :=
  let r := i.read 16
  let preamble := SegmentPreamble.ofBytes (r.1 ++ c.preamble.bytes.drop r.1.length)
  let startPos := r.2.tellg
  let v := s.readFrom c.val r.2
  let size := v.2.tellg - startPos
  let blockSize : Int := preamble.blockSize.toNat
  let blocksCount := asSizeT (size.tdiv blockSize + if size.tmod blockSize = 0 then 0 else 1)
  let reserved := asStreamoff (blocksCount * preamble.blockSize.toNat % 18446744073709551616)
  (⟨preamble, blocksCount, v.1⟩, skipBytesI (startPos + reserved - v.2.tellg) v.2)

/-! ### In sequence -/

/-- What was written behind `o` is read back, by a container that held anything, and the stream
stands behind the padding then, whatever comes there. -/
def ReadsInSequence (c : SegmentContainer T) (o : List UInt8) : Prop :=
  ∃ c' written, c.writeTo s o = some (c', o ++ written) ∧
    ∀ (dest : SegmentContainer T) (rest : List UInt8),
      (dest.readFrom s (.between o (written ++ rest))).1.val = c.val ∧
      (dest.readFrom s (.between o (written ++ rest))).2 = .between (o ++ written) rest

/-- The bytes that the reader takes to be reserved. -/
def recounted (c : SegmentContainer T) : Int :=
  asStreamoff
    (blocksFor (s.writeTo c.val).length c.preamble.blockSize.toNat % 18446744073709551616 *
      c.preamble.blockSize.toNat % 18446744073709551616)

def padding (c : SegmentContainer T) : List UInt8 :=
  List.replicate ((c.adjusted s).reserved - (s.writeTo c.val).length) 0

/-- The preamble, the object and the padding. -/
def written (c : SegmentContainer T) : List UInt8 :=
  (c.adjusted s).bytes ++ s.writeTo c.val ++ c.padding s

variable {s} {c : SegmentContainer T} {o : List UInt8}

theorem writeTo_eq (c : SegmentContainer T) (o : List UInt8) : c.writeTo s o =
    if (c.adjusted s).reserved < (s.writeTo c.val).length then none
    else some ({ c with preamble := c.adjusted s }, o ++ c.written s) := by
  have hcount : ((o ++ (c.adjusted s).bytes).length : Int) + (c.adjusted s).reserved -
      (o ++ (c.adjusted s).bytes ++ s.writeTo c.val).length =
        ((c.adjusted s).reserved : Int) - (s.writeTo c.val).length := by
    simp only [List.length_append]
    omega
  simp only [writeTo, skipBytesO, hcount]
  by_cases hfits : (c.adjusted s).reserved < (s.writeTo c.val).length
  · rw [if_pos hfits, if_pos (by omega)]
    rfl
  · have hpadding : (((c.adjusted s).reserved : Int) - (s.writeTo c.val).length).toNat =
        (c.adjusted s).reserved - (s.writeTo c.val).length := by omega
    rw [if_neg hfits, if_neg (by omega), hpadding]
    simp only [written, padding, List.append_assoc, Option.bind_eq_bind, Option.bind_some]

/-- The reader counts an object's blocks in signed numbers. -/
theorem asSizeT_blocksFor (size blockSize : Nat) :
    asSizeT ((size : Int).tdiv blockSize + if (size : Int).tmod blockSize = 0 then 0 else 1) =
      blocksFor size blockSize % 18446744073709551616 := by
  have hblocks : ((size : Int).tdiv blockSize + if (size : Int).tmod blockSize = 0 then 0 else 1) =
      (blocksFor size blockSize : Int) := by
    rw [← Int.ofNat_tdiv, ← Int.ofNat_tmod, blocksFor]
    by_cases hrest : size % blockSize = 0
    · simp [hrest]
    · have hrest' : ((size % blockSize : Nat) : Int) ≠ 0 := by omega
      rw [if_neg hrest', if_neg hrest]
      rfl
  rw [hblocks, asSizeT]
  omega

/-- The object is read back, and then the reader goes to the count of the bytes to skip. -/
theorem readFrom_eq (hexact : s.Exact c.val) (dest : SegmentContainer T) (rest : List UInt8) :
    (dest.readFrom s (.between o (c.written s ++ rest))).1.val = c.val ∧
      (dest.readFrom s (.between o (c.written s ++ rest))).2 =
        (IStream.between (o ++ (c.adjusted s).bytes ++ s.writeTo c.val) (c.padding s ++ rest)).seekg
          (c.recounted s - (s.writeTo c.val).length) := by
  have hread := IStream.read_between o (c.adjusted s).bytes
    (s.writeTo c.val ++ (c.padding s ++ rest))
  rw [SegmentPreamble.length_bytes] at hread
  have hpreamble : (c.adjusted s).bytes ++ dest.preamble.bytes.drop (c.adjusted s).bytes.length =
      (c.adjusted s).bytes := by
    rw [List.drop_eq_nil_of_le (by simp), List.append_nil]
  have hsize : ((o ++ (c.adjusted s).bytes ++ s.writeTo c.val).length : Int) -
      (o ++ (c.adjusted s).bytes).length = (s.writeTo c.val).length := by
    simp only [List.length_append]
    omega
  have hblock : (c.adjusted s).blockSize = c.preamble.blockSize := rfl
  simp only [written, List.append_assoc, readFrom, hread, hpreamble, SegmentPreamble.ofBytes_bytes,
    hexact dest.val, IStream.tellg_between, true_and]
  have hskip : (((o ++ (c.adjusted s).bytes).length : Int) + c.recounted s -
      (o ++ (c.adjusted s).bytes ++ s.writeTo c.val).length) =
        c.recounted s - (s.writeTo c.val).length := by
    omega
  simp only [List.append_assoc] at hsize hskip
  rw [hsize, hblock, asSizeT_blocksFor, skipBytesI, ← hskip]
  rfl

/-- An object that fits has fewer blocks than a `streamoff` counts. -/
theorem recounted_of_le (hblock : c.preamble.blockSize ≠ 0)
    (hle : (s.writeTo c.val).length ≤ (c.adjusted s).reserved) :
    c.recounted s =
      (blocksFor (s.writeTo c.val).length c.preamble.blockSize.toNat *
        c.preamble.blockSize.toNat : Nat) := by
  have hpos := SegmentPreamble.blockSize_pos hblock
  have hlt := @blocksFor_mul_lt (s.writeTo c.val).length _ hpos
  have hsmall := c.preamble.blockSize.toNat_lt
  have hreserved : (c.adjusted s).reserved < 4294967296 := UInt32.toNat_lt _
  have hcount := Nat.le_mul_of_pos_right
    (blocksFor (s.writeTo c.val).length c.preamble.blockSize.toNat) hpos
  rw [recounted]
  generalize blocksFor (s.writeTo c.val).length c.preamble.blockSize.toNat = count at *
  rw [Nat.mod_eq_of_lt (a := count) (by omega), Nat.mod_eq_of_lt (by omega),
    asStreamoff_of_lt (by omega)]

/-- The container reads back in sequence just when the object fits, and the bytes to skip in the
last block happen to be as many as there are in front of the next container.  They never are when
the object declares the size that it writes. -/
theorem readsInSequence_iff (hexact : s.Exact c.val) (hblock : c.preamble.blockSize ≠ 0) :
    (c.ReadsInSequence s o ↔ (s.writeTo c.val).length ≤ (c.adjusted s).reserved ∧
      blocksFor (s.writeTo c.val).length c.preamble.blockSize.toNat * c.preamble.blockSize.toNat =
        (s.writeTo c.val).length + (o.length + 16 + (c.adjusted s).reserved)) ∧
    (s.getSize c.val = (s.writeTo c.val).length → ¬ c.ReadsInSequence s o) := by
  have hpos := SegmentPreamble.blockSize_pos hblock
  have hiff : c.ReadsInSequence s o ↔ (s.writeTo c.val).length ≤ (c.adjusted s).reserved ∧
      blocksFor (s.writeTo c.val).length c.preamble.blockSize.toNat * c.preamble.blockSize.toNat =
        (s.writeTo c.val).length + (o.length + 16 + (c.adjusted s).reserved) := by
    unfold ReadsInSequence
    rw [writeTo_eq]
    by_cases hfits : (c.adjusted s).reserved < (s.writeTo c.val).length
    · rw [if_pos hfits]
      constructor
      · rintro ⟨c', w, hwrite, -⟩
        exact absurd hwrite (by simp)
      · rintro ⟨hle, -⟩
        omega
    · rw [if_neg hfits]
      have hle : (s.writeTo c.val).length ≤ (c.adjusted s).reserved := Nat.le_of_not_lt hfits
      have hstands (dest : SegmentContainer T) (rest : List UInt8) :
          (dest.readFrom s (.between o (c.written s ++ rest))).2 =
            .between (o ++ c.written s) rest ↔
            c.recounted s - (s.writeTo c.val).length = (o ++ c.written s).length := by
        rw [(readFrom_eq hexact dest rest).2]
        exact IStream.seekg_between_iff (by simp [written]) _
      have hlength : (o ++ c.written s).length = o.length + 16 + (c.adjusted s).reserved := by
        simp only [written, padding, List.length_append, SegmentPreamble.length_bytes,
          List.length_replicate]
        omega
      rw [hlength, recounted_of_le hblock hle] at hstands
      constructor
      · rintro ⟨c', w, hwrite, hread⟩
        have hw : c.written s = w := by simpa using (Prod.mk.inj (Option.some.inj hwrite)).2
        subst hw
        have hcount := (hstands c []).mp (hread c []).2
        exact ⟨hle, by omega⟩
      · rintro ⟨-, hcount⟩
        exact ⟨_, _, rfl, fun dest rest =>
          ⟨(readFrom_eq hexact dest rest).1, (hstands dest rest).mpr (by omega)⟩⟩
  refine ⟨hiff, fun hsize hreads => ?_⟩
  obtain ⟨hle, hcount⟩ := hiff.mp hreads
  rw [adjusted, hsize] at hle hcount
  have hreserved := SegmentPreamble.reserved_of_le hblock hle
  omega

/-- A byte that is written as it is. -/
def byteSerial : Serial UInt8 where
  writeTo b := [b]
  readFrom dest i := ((i.read 1).1.headD dest, (i.read 1).2)
  getSize _ := 1

theorem byteSerial_exact (b : UInt8) : byteSerial.Exact b := by
  intro dest pre rest
  have hread := IStream.read_between pre [b] rest
  simp only [List.length_singleton] at hread
  simp only [byteSerial, hread, List.headD_cons]

theorem readsInSequence_iff_byte :
    ¬ ReadsInSequence byteSerial { preamble := { blockSize := 4 }, val := 7 } [] :=
  (readsInSequence_iff (byteSerial_exact 7) (by decide)).2 rfl

/-- Of two containers with a byte each, the first is read, and then the stream stands at the third
byte of the file. -/
theorem byte_not_readsInSequence : byteSerial.Exact 7 ∧
    ¬ ReadsInSequence byteSerial { preamble := { blockSize := 4 }, val := 7 } [] := by
  refine ⟨byteSerial_exact 7, ?_⟩
  rintro ⟨c', w, hwrite, hread⟩
  rw [writeTo_eq, if_neg (by decide)] at hwrite
  obtain rfl : _ = w := (Prod.mk.inj (Option.some.inj hwrite)).2
  exact absurd (hread { preamble := { blockSize := 4 }, val := 7 } []).2 (by decide)

end SegmentContainer

end StateDb
