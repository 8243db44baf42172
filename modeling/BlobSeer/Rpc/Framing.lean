import Mathlib.Data.List.Basic
import BlobSeer.Structures

/-!
# The bytes on a connection (`rpc/rpc_client.hpp`, `rpc/rpc_server.hpp`)

A request is a header with the number of its parameters, and then the size and the bytes of each
parameter; an answer has the same form. Both sides keep the count and each size in the same field
`header.psize`, and the server works through all requests of a connection with one `rpcinfo_t`.

The handlers of a side follow one another on the completion of a read or write of a fixed number of
bytes (`transfer_all`), so each side is a function on what is left to read. Integers go over the
connection as they lie in memory, the low byte first.
-/

namespace BlobSeer.Rpc

/-! ## Words and buffers -/

/-- The memory of a 32-bit word. -/
def u32Bytes (n : UInt32) : List UInt8 :=
  [.ofNat n.toNat, .ofNat (n.toNat / 2 ^ 8), .ofNat (n.toNat / 2 ^ 16), .ofNat (n.toNat / 2 ^ 24)]

def u32OfBytes (l : List UInt8) : UInt32 := .ofNat (l.foldr (fun b n => b.toNat + 2 ^ 8 * n) 0)

@[simp] theorem u32OfBytes_u32Bytes (n : UInt32) : u32OfBytes (u32Bytes n) = n := by
  have hn := n.toNat_lt
  rw [← UInt32.toNat_inj]
  simp only [u32OfBytes, u32Bytes, List.foldr_cons, List.foldr_nil, UInt32.toNat_ofNat',
    UInt8.toNat_ofNat']
  omega

@[simp] theorem u32Bytes_length (n : UInt32) : (u32Bytes n).length = 4 := rfl

/-- `buffer_wrapper`, whose `len` has 32 bits. -/
structure Buffer where
  content : List UInt8
  size_lt : content.length < 2 ^ 32
deriving DecidableEq

namespace Buffer

/-- The default constructor. -/
def empty : Buffer := ⟨[], by decide⟩

/-- `buffer_wrapper::size`. -/
def size (b : Buffer) : UInt32 := .ofNat b.content.length

theorem size_toNat (b : Buffer) : b.size.toNat = b.content.length := by
  rw [size, UInt32.toNat_ofNat', Nat.mod_eq_of_lt b.size_lt]

end Buffer

/-- `rpcheader_t`. -/
structure Header where
  name : UInt32
  psize : UInt32
  status : Int32 := 0
deriving DecidableEq

/-- The memory of a header. -/
def Header.bytes (h : Header) : List UInt8 :=
  u32Bytes h.name ++ (u32Bytes h.psize ++ u32Bytes h.status.toUInt32)

/-! ## Reads with `transfer_all` -/

/-- The next `n` bytes, and what is left after them. -/
def readBytes (n : Nat) (input : List UInt8) : Option (List UInt8 × List UInt8) :=
  if n ≤ input.length then some (input.take n, input.drop n) else none

/-- A read into `header.psize`. -/
def readSize (input : List UInt8) : Option (UInt32 × List UInt8) :=
  (readBytes 4 input).map fun (bytes, rest) => (u32OfBytes bytes, rest)

/-- A read into `header`. -/
def readHeader (input : List UInt8) : Option (Header × List UInt8) :=
  (readBytes 12 input).map fun (bytes, rest) =>
    (⟨u32OfBytes (bytes.take 4), u32OfBytes ((bytes.drop 4).take 4),
      .ofUInt32 (u32OfBytes ((bytes.drop 8).take 4))⟩, rest)

/-- A read into a buffer of `n` bytes. -/
def readBuffer (n : UInt32) (input : List UInt8) : Option (Buffer × List UInt8) :=
  if n.toNat ≤ input.length then
    some (⟨input.take n.toNat, (List.length_take_le _ _).trans_lt n.toNat_lt⟩, input.drop n.toNat)
  else none

@[simp] theorem readBytes_append (bytes rest : List UInt8) :
    readBytes bytes.length (bytes ++ rest) = some (bytes, rest) := by
  simp [readBytes]

@[simp] theorem readSize_append (n : UInt32) (rest : List UInt8) :
    readSize (u32Bytes n ++ rest) = some (n, rest) := by
  have hread := readBytes_append (u32Bytes n) rest
  rw [u32Bytes_length] at hread
  simp only [readSize, hread, Option.map_some, u32OfBytes_u32Bytes]

@[simp] theorem readHeader_append (h : Header) (rest : List UInt8) :
    readHeader (h.bytes ++ rest) = some (h, rest) := by
  have hread := readBytes_append h.bytes rest
  have hlen : h.bytes.length = 12 := rfl
  rw [hlen] at hread
  have hname : h.bytes.take 4 = u32Bytes h.name := rfl
  have hpsize : (h.bytes.drop 4).take 4 = u32Bytes h.psize := rfl
  have hstatus : (h.bytes.drop 8).take 4 = u32Bytes h.status.toUInt32 := rfl
  simp only [readHeader, hread, Option.map_some, hname, hpsize, hstatus, u32OfBytes_u32Bytes]

@[simp] theorem readBuffer_append (b : Buffer) (rest : List UInt8) :
    readBuffer b.size (b.content ++ rest) = some (b, rest) := by
  rw [readBuffer, if_pos (by simp [b.size_toNat])]
  simp [b.size_toNat]

/-! ## The two sides -/

/-- `rpcinfo_t`: a call of the client, or a connection of the server. -/
structure RpcInfo where
  params : List Buffer := []
  result : List Buffer := []
  header : Header
deriving DecidableEq

/-- `std::vector::resize`. -/
def resize (l : List Buffer) (n : Nat) : List Buffer := l.take n ++ List.replicate (n - l.length) .empty

/-- `header.psize` is assigned. -/
def RpcInfo.setPsize (info : RpcInfo) (psize : UInt32) : RpcInfo :=
  { info with header := { info.header with psize := psize } }

/-- The value of `boost::asio::error::invalid_argument`. -/
def invalidArgument : Int32 := 22

/-- `handle_callback` with an error: the callback gets this status, and the socket is closed. -/
def RpcInfo.fail (info : RpcInfo) : RpcInfo :=
  { info with header := { info.header with status := invalidArgument } }

/-- The loop that sends the parameters of a request (`handle_params`, `handle_param_size`,
`handle_param_buffer` of the client) or the results of an answer (`handle_answer`,
`handle_answer_size`, `handle_answer_buffer` of the server), with its 32-bit index: the last size
that was stored in `header.psize`, and the bytes. With a round of fuel more than there are buffers,
the loop runs out of fuel only when it never ends. -/
def sendLoop (buffers : List Buffer) : Nat → Nat → UInt32 → Option (UInt32 × List UInt8)
  | 0, _, _ => none
  | fuel + 1, index, psize =>
    if index < buffers.length then
      let buffer := buffers.getD index .empty
      (sendLoop buffers fuel (u32 (index + 1)) buffer.size).map fun (psize, out) =>
        (psize, u32Bytes buffer.size ++ (buffer.content ++ out))
    else some (psize, [])

/-- A header and the buffers it announces. -/
def sendMessage (header : Header) (buffers : List Buffer) : Option (UInt32 × List UInt8) :=
  (sendLoop buffers (buffers.length + 1) 0 header.psize).map fun (psize, out) =>
    (psize, header.bytes ++ out)

namespace Server

/-- `handle_params`, `handle_param_size`, `handle_param_buffer`: `n` parameters are left to read. The
number of parameters fits in 32 bits, and the index does not wrap around. -/
def paramLoop : Nat → Nat → RpcInfo → List UInt8 → Option (RpcInfo × List UInt8)
  | 0, _, info, input => some (info, input)
  | n + 1, index, info, input =>
    match readSize input with
    | none => none
    | some (psize, input) =>
      match readBuffer psize input with
      | none => none
      | some (buffer, input) =>
        let info := info.setPsize psize
        paramLoop n (index + 1) { info with params := info.params.set index buffer } input

/-- `handle_connection` and `handle_header`: the request is read into the `rpcinfo_t` of the
connection. -/
def readRequest (registered : UInt32 → Bool) (info : RpcInfo) (input : List UInt8) :
    Option (RpcInfo × List UInt8) :=
  match readHeader input with
  | none => none
  | some (header, input) =>
    if registered header.name then
      let info := { info with
        header := header
        params := resize info.params header.psize.toNat }
      paramLoop info.params.length 0 info input
    else none

/-- `processor_exec` and the answer, for a callback that returns `status` and leaves `result`. -/
def answer (info : RpcInfo) (status : Int32) (result : List Buffer) :
    Option (RpcInfo × List UInt8) :=
  let header := { info.header with status := status, psize := .ofNat result.length }
  (sendMessage header result).map fun (psize, out) =>
    ({ info with result := result, header := header }.setPsize psize, out)

/-- A connection: the requests are read and answered one after another. The result has the names and
the parameters that the callbacks were given, the bytes that were sent, and those not read. -/
def serve (registered : UInt32 → Bool) : List (Int32 × List Buffer) → RpcInfo → List UInt8 →
    Option (List (UInt32 × List Buffer) × List UInt8 × List UInt8)
  | [], _, input => some ([], [], input)
  | (status, result) :: answers, info, input =>
    match readRequest registered info input with
    | none => none
    | some (info, input) =>
      match answer info status result with
      | none => none
      | some (info', out) =>
        (serve registered answers info' input).map fun (requests, outs, rest) =>
          ((info.header.name, info.params) :: requests, out ++ outs, rest)

end Server

namespace Client

/-- A call of `dispatch`; `managed` holds the buffers that the caller has supplied for the results. -/
structure Call where
  name : UInt32
  params : List Buffer
  managed : List Buffer := []
deriving DecidableEq

/-- The `rpcinfo_t` made by `dispatch`. -/
def Call.info (c : Call) : RpcInfo :=
  ⟨c.params, c.managed, { name := c.name, psize := .ofNat c.params.length }⟩

/-- `handle_connect`, `handle_header` and the parameters: the state after it, and the bytes. -/
def send (c : Call) : Option (RpcInfo × List UInt8) :=
  (sendMessage c.info.header c.params).map fun (psize, out) => (c.info.setPsize psize, out)

/-- `handle_answer_size`, `handle_answer_buffer` and `handle_answer` for `n` more results: what the
callback gets, and the bytes left on the connection unless it was closed. A buffer with a size is
managed by the caller and is filled in place. -/
def answerLoop : Nat → Nat → RpcInfo → List UInt8 → RpcInfo × Option (List UInt8)
  | 0, _, info, input => (info, some input)
  | n + 1, index, info, input =>
    match readSize input with
    | none => (info.fail, none)
    | some (psize, input) =>
      let info := info.setPsize psize
      let size := (info.result.getD index .empty).size
      if size ≠ 0 ∧ size ≠ psize then (info.fail, none)
      else
        match readBuffer psize input with
        | none => (info.fail, none)
        | some (buffer, input) =>
          answerLoop n (index + 1) { info with result := info.result.set index buffer } input

/-- `handle_answer` for the header of the answer, and the results after it. -/
def readAnswer (info : RpcInfo) (input : List UInt8) : RpcInfo × Option (List UInt8) :=
  match readHeader input with
  | none => (info.fail, none)
  | some (header, input) =>
    let info := { info with
      header := header
      result := resize info.result header.psize.toNat }
    answerLoop info.result.length 0 info input

/-- The bytes of the calls that are made one after another on a connection. -/
def stream : List Call → Option (List UInt8)
  | [] => some []
  | c :: calls =>
    match send c, stream calls with
    | some (_, out), some outs => some (out ++ outs)
    | _, _ => none

/-- What the callbacks of the calls get, and the bytes left unless the connection was closed. A call
after that one is not made on this connection. -/
def receive : List Call → List UInt8 → List (Int32 × List Buffer) × Option (List UInt8)
  | [], input => ([], some input)
  | c :: calls, input =>
    match send c with
    | none => ([], none)
    | some (info, _) =>
      match readAnswer info input with
      | (info, none) => ([(info.header.status, info.result)], none)
      | (info, some input) =>
        let (answers, rest) := receive calls input
        ((info.header.status, info.result) :: answers, rest)

end Client

end BlobSeer.Rpc
