/-
  StateDb/NetMessage.lean
  =======================
  **Messages as bytes** (`net_message.h`, `net_message.cpp`, `commands.h`).

  The structures are packed, and numbers are little-endian.
-/
import StateDb.Handlers

namespace StateDb

/-- A number in `k` little-endian bytes. -/
def le : Nat → Nat → List UInt8
  | 0, _ => []
  | k + 1, n => UInt8.ofNat n :: le k (n / 256)

@[simp] theorem length_le (k n : Nat) : (le k n).length = k := by
  induction k generalizing n with
  | zero => rfl
  | succ k ih => rw [le, List.length_cons, ih]

theorem leNat_cons (b : UInt8) (bytes : List UInt8) :
    leNat (b :: bytes) = b.toNat + 256 * leNat bytes := by
  simp [leNat, Nat.ofDigits_cons]

theorem leNat_le {k n : Nat} (h : n < 256 ^ k) : leNat (le k n) = n := by
  induction k generalizing n with
  | zero =>
    have hzero : n = 0 := by simpa using h
    subst hzero
    rfl
  | succ k ih =>
    have hdiv : n / 256 < 256 ^ k := by
      rw [Nat.pow_succ] at h
      exact Nat.div_lt_of_lt_mul (by rwa [Nat.mul_comm] at h)
    rw [le, leNat_cons, ih hdiv, UInt8.toNat_ofNat']
    exact Nat.mod_add_div n 256

/-! ## From the client -/

/-- `commands::request_*` that have a handler. -/
def requestGet : Nat := 1
def requestPing : Nat := 3
def requestSet : Nat := 4
def requestGetAll : Nat := 5

/-- `STATEDB_PROTOCOL_VERSION`. -/
def protocolVersion : UInt8 := 1

/-- `hello_message_static::valid`, on the six bytes of the structure. -/
def helloValid (hello : List UInt8) : Bool :=
  hello.getD 5 0 = protocolVersion && hello.getD 0 0 = 72 && hello.getD 1 0 = 101 &&
    hello.getD 2 0 = 76 && hello.getD 3 0 = 108 && hello.getD 4 0 = 79

/-- The HELLO of a client. -/
def hello : List UInt8 := [72, 101, 76, 108, 79, protocolVersion]

@[simp] theorem length_hello : hello.length = 6 := rfl

/-- `message_preamble`: seven bytes. -/
structure MessagePreamble where
  id : Nat
  flags : UInt8
  size : Nat
deriving DecidableEq, Repr

def MessagePreamble.ofBytes (bytes : List UInt8) : MessagePreamble where
  id := leNat (bytes.take 2)
  flags := bytes.getD 2 0
  size := leNat ((bytes.drop 3).take 4)

/-- What a client sends after its HELLO: a preamble and as many bytes as it
announces. -/
structure ClientMessage where
  id : Nat
  flags : UInt8
  body : List UInt8
  id_lt : id < 65536
  size_lt : body.length < 4294967296

namespace ClientMessage

def preamble (m : ClientMessage) : MessagePreamble := ⟨m.id, m.flags, m.body.length⟩

def preambleBytes (m : ClientMessage) : List UInt8 := le 2 m.id ++ m.flags :: le 4 m.body.length

def bytes (m : ClientMessage) : List UInt8 := m.preambleBytes ++ m.body

@[simp] theorem length_preambleBytes (m : ClientMessage) : m.preambleBytes.length = 7 := by
  simp [preambleBytes]

/-- The server reads the preamble that was sent. -/
theorem ofBytes_preambleBytes (m : ClientMessage) :
    MessagePreamble.ofBytes m.preambleBytes = m.preamble := by
  have hid : m.preambleBytes.take 2 = le 2 m.id := by
    rw [preambleBytes, List.take_left' (length_le 2 m.id)]
  have hflags : m.preambleBytes.getD 2 0 = m.flags := by
    simp [preambleBytes, le]
  have hsize : (m.preambleBytes.drop 3).take 4 = le 4 m.body.length := by
    rw [preambleBytes, ← List.singleton_append, ← List.append_assoc, List.drop_left' (by simp)]
    exact List.take_of_length_le (by simp)
  rw [MessagePreamble.ofBytes, hid, hflags, hsize, leNat_le m.id_lt, leNat_le m.size_lt, preamble]

end ClientMessage

/-- The stream of a client that sends these messages. -/
def clientStream (ms : List ClientMessage) : List UInt8 := ms.flatMap ClientMessage.bytes

/-! ## To the client -/

/-- `message_out_preamble`: six bytes. -/
def Response.preambleBytes (r : Response) : List UInt8 := le 2 r.id ++ le 4 r.size

/-- `make_pong_message`: only the id is set, `size` is what the memory held. -/
def pong (size : Nat) : Response := ⟨responsePong, size, []⟩

/-- `async_write_error`: the text goes with its terminating zero. -/
def errorResponse (message : Key) : Response :=
  let size := preambleSize (message.chars.length + 1)
  ⟨responseError, size, message.bytes.take size⟩

/-- The two halves of a response, which are written one after the other. -/
inductive Part where
  | preamble (r : Response)
  | body (r : Response)
deriving DecidableEq, Repr

end StateDb
