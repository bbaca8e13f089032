/-
  StateDb/Lib/Stream.lean
  =========================
  **Seekable streams, and objects that are written to them.**

  An input stream is its bytes and a position in them.  A read that finds too few bytes
  fails, and so does a seek to a negative position; nothing moves a stream that has failed.
  `IStream.between pre rest` stands behind `pre` and in front of `rest`.

  A `Serial` says how the objects of a type are written, read and sized; an object is
  `Exact` if reading what was written gives it back and consumes just that.
-/
import Mathlib.Data.List.Basic

namespace StateDb.Lib

structure IStream where
  content : List UInt8
  pos : Nat := 0
  failed : Bool := false
deriving DecidableEq, Repr

namespace IStream

/-- The stream stands behind `pre`. -/
def between (pre rest : List UInt8) : IStream := ⟨pre ++ rest, pre.length, false⟩

def read (i : IStream) (count : Nat) : List UInt8 × IStream :=
  if i.failed then ([], i)
  else
    let bytes := (i.content.drop i.pos).take count
    (bytes, ⟨i.content, i.pos + bytes.length, bytes.length < count⟩)

def tellg (i : IStream) : Int := if i.failed then -1 else i.pos

/-- `seekg` of an absolute position. -/
def seekg (i : IStream) (pos : Int) : IStream :=
  if i.failed ∨ pos < 0 then { i with failed := true } else { i with pos := pos.toNat }

@[simp] theorem tellg_between (pre rest : List UInt8) : (between pre rest).tellg = pre.length := rfl

theorem length_read_le (i : IStream) (count : Nat) : (i.read count).1.length ≤ count := by
  unfold read
  split
  · exact Nat.zero_le count
  · exact List.length_take_le count _

theorem read_between (pre bytes rest : List UInt8) :
    (between pre (bytes ++ rest)).read bytes.length = (bytes, between (pre ++ bytes) rest) := by
  simp [between, read]

/-- A seek leads behind `pre'` just when it is to the length of `pre'`. -/
theorem seekg_between_iff {pre rest pre' rest' : List UInt8} (hsame : pre ++ rest = pre' ++ rest')
    (pos : Int) : (between pre rest).seekg pos = between pre' rest' ↔ pos = pre'.length := by
  constructor
  · intro hseek
    by_cases hneg : pos < 0
    · simp [seekg, between, hneg] at hseek
    · simp only [seekg, between, hneg, or_false, Bool.false_eq_true, if_false, IStream.mk.injEq]
        at hseek
      omega
  · rintro rfl
    simp [seekg, between, hsame]

end IStream

/-- How the objects of a type are written, read into an object, and sized. -/
structure Serial (T : Type) where
  writeTo : T → List UInt8
  readFrom : T → IStream → T × IStream
  getSize : T → Nat

/-- Whatever stands around what was written, it is read back, and nothing else. -/
def Serial.Exact {T : Type} (s : Serial T) (v : T) : Prop :=
  ∀ dest pre rest, s.readFrom dest (.between pre (s.writeTo v ++ rest)) =
    (v, .between (pre ++ s.writeTo v) rest)

end StateDb.Lib
